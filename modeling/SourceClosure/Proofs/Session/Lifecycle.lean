import SourceClosure.Proofs.Config.Fallback
import SourceClosure.Proofs.Session.Answers

/-!
# The life of a session

A session is configured once. Whatever is asked of it, in whatever order and over files that change
from one operation to the next, its phase only goes up; the step in which it leaves the first phase
loads the configuration and hands the options to the engine, and no other step does either of these.
Before the step the configuration is the default one, and after it that of the files of the step.

Every operation has the same shape (`Session.exists_feeds_perform`): it may configure the session,
then it feeds the engine, then it may raise the phase.
-/

namespace SourceClosure

/-! ## Calls of the engine -/

/-- Whether the call gives compiler options. -/
def EngineCall.isConfigure : EngineCall → Bool
  | configure _ => true
  | _ => false

namespace Engine

/-- The engine after one more call. -/
def call (e : Engine) : EngineCall → Engine
  | .configure o => e.configure o
  | .addSource f => e.addSource f
  | .openModel f => e.openModel f

/-- The engine after more calls. -/
def callEach (e : Engine) (calls : List EngineCall) : Engine :=
  calls.foldl call e

theorem callEach_cons (e : Engine) (c : EngineCall) (calls : List EngineCall) :
    e.callEach (c :: calls) = (e.call c).callEach calls :=
  rfl

theorem callEach_append (e : Engine) (calls more : List EngineCall) :
    e.callEach (calls ++ more) = (e.callEach calls).callEach more :=
  List.foldl_append

@[simp] theorem calls_callEach (e : Engine) (calls : List EngineCall) :
    (e.callEach calls).calls = e.calls ++ calls := by
  induction calls generalizing e with
  | nil => exact (List.append_nil _).symm
  | cons c calls ih =>
    have hcall : (e.call c).calls = e.calls ++ [c] := by cases c <;> rfl
    rw [callEach_cons, ih, hcall, List.append_assoc, List.singleton_append]

/-- The options that an engine holds, and how often it was given some, depend on the calls alone
that give options. -/
theorem options_callEach (e : Engine) (calls : List EngineCall) :
    (e.callEach calls).options = (e.callEach (calls.filter EngineCall.isConfigure)).options ∧
      (e.callEach calls).updates =
        (e.callEach (calls.filter EngineCall.isConfigure)).updates := by
  -- The calls that are left out feed only one of the two engines, which drift apart but for this.
  suffices h : ∀ e' : Engine, e'.options = e.options → e'.updates = e.updates →
      (e'.callEach calls).options = (e.callEach (calls.filter EngineCall.isConfigure)).options ∧
      (e'.callEach calls).updates = (e.callEach (calls.filter EngineCall.isConfigure)).updates
    from h e rfl rfl
  intro e' hoptions hupdates
  induction calls generalizing e e' with
  | nil => exact ⟨hoptions, hupdates⟩
  | cons c calls ih =>
    cases c with
    | configure o => exact ih (e.configure o) (e'.configure o) rfl (congrArg (· + 1) hupdates)
    | addSource f => exact ih e (e'.addSource f) hoptions hupdates
    | openModel f => exact ih e (e'.openModel f) hoptions hupdates

end Engine

/-! ## Phases -/

/-- The phase that an operation takes a session to that has not come further yet. -/
def Operation.target : Operation → Phase
  | .configure => .configured
  | .activate _ => .configured
  | .start _ => .ready
  | _ => .uninitialized

namespace Session

variable {p : Project} {s t u : Session}

theorem rank_eq_zero_iff {phase : Phase} : phase.rank = 0 ↔ phase = .uninitialized := by
  cases phase <;> decide

theorem rank_pos {phase : Phase} (h : phase ≠ .uninitialized) : 0 < phase.rank := by
  rw [Nat.pos_iff_ne_zero, ne_eq, rank_eq_zero_iff]
  exact h

theorem rank_advance (s : Session) (phase : Phase) :
    (s.advance phase).phase.rank = max s.phase.rank phase.rank := by
  unfold advance
  split
  · next h => exact (Nat.max_eq_right h.le).symm
  · next h => exact (Nat.max_eq_left (Nat.le_of_not_lt h)).symm

/-- A later phase is all that changes. -/
theorem exists_advance_eq (s : Session) (phase : Phase) :
    ∃ later, s.advance phase = { s with phase := later } := by
  unfold advance
  split
  · exact ⟨phase, rfl⟩
  · exact ⟨s.phase, rfl⟩

theorem advance_of_le {phase : Phase} (h : phase.rank ≤ s.phase.rank) : s.advance phase = s :=
  if_neg (Nat.not_lt.2 h)

theorem configure_of_uninitialized (p : Project) (h : s.phase = .uninitialized) :
    let loaded := Config.load p.files p.settings.packageRoot
    configure p s =
      { s with
        phase := .configured
        config := loaded.1
        engine := s.engine.configure loaded.1.options
        accesses := loaded.2 ++ s.accesses } := by
  unfold configure advance
  rw [if_pos h, h]
  rfl

theorem configure_of_ne (p : Project) (h : s.phase ≠ .uninitialized) : configure p s = s :=
  if_neg h

theorem rank_configure (p : Project) (s : Session) :
    (configure p s).phase.rank = max s.phase.rank Phase.configured.rank := by
  by_cases h : s.phase = .uninitialized
  · rw [configure_of_uninitialized p h, h]
    rfl
  · rw [configure_of_ne p h]
    exact (Nat.max_eq_left (rank_pos h)).symm

/-! ## Feeding -/

/-- The second session comes of the first by calls of the engine that feed it, with the phase and
the configuration as they were. -/
structure Feeds (s t : Session) : Prop where
  phase : t.phase = s.phase
  config : t.config = s.config
  engine : ∃ fed, (∀ c ∈ fed, EngineCall.isConfigure c = false) ∧
    t.engine = s.engine.callEach fed

namespace Feeds

theorem of_engine (hphase : t.phase = s.phase) (hconfig : t.config = s.config)
    (hengine : t.engine = s.engine) : Feeds s t :=
  ⟨hphase, hconfig, [], fun _ h => (nomatch h), hengine⟩

theorem refl (s : Session) : Feeds s s :=
  of_engine rfl rfl rfl

theorem trans (h : Feeds s t) (h' : Feeds t u) : Feeds s u := by
  obtain ⟨fed, hfed, hengine⟩ := h.engine
  obtain ⟨more, hmore, hengine'⟩ := h'.engine
  refine ⟨h'.phase.trans h.phase, h'.config.trans h.config, fed ++ more, ?_, ?_⟩
  · intro c hc
    exact (List.mem_append.1 hc).elim (hfed c) (hmore c)
  · rw [hengine', hengine, Engine.callEach_append]

end Feeds

theorem feeds_register (p : Project) (path content : Text) (s : Session) :
    Feeds s (s.register p path content).2 := by
  cases hhas : s.has (Path.toProject path) with
  | true =>
    rw [register_of_has hhas]
    exact .refl s
  | false =>
    rw [register_of_not_has hhas]
    let source : Source := ⟨Path.toUri (Path.toProject path), content⟩
    let calls : List EngineCall :=
      if p.isLive (Path.toProject path) then [.addSource source, .openModel source]
      else [.addSource source]
    refine ⟨rfl, rfl, calls, ?_, ?_⟩ <;> unfold calls <;> split
    · simp [EngineCall.isConfigure]
    · simp [EngineCall.isConfigure]
    · rfl
    · rfl

theorem Change.feeds (h : Change p s t) : Feeds s t := by
  cases h with
  | note => exact .of_engine rfl rfl rfl
  | feed => exact feeds_register p _ _ s
  | discover =>
    unfold Session.discover
    split
    · exact .refl s
    · exact .of_engine rfl rfl rfl
  | take => exact .of_engine rfl rfl rfl
  | requeue => exact .of_engine rfl rfl rfl

theorem Evolves.feeds (h : Evolves p s t) : Feeds s t :=
  h.invariant (fun hchange hs => hs.trans hchange.feeds) (.refl s)

/-! ## What one step can do -/

/-- An operation configures the session if it aims at a later phase, feeds the engine, and takes the
session to the phase that it aims at. -/
theorem exists_feeds_perform (p : Project) (s : Session) (operation : Operation) :
    ∃ u, Feeds (if operation.target = .uninitialized then s else configure p s) u ∧
      (perform p s operation).2 = u.advance operation.target := by
  have hconfigured {u : Session} (h : Feeds (configure p s) u) :
      u.advance .configured = u := by
    refine advance_of_le ?_
    rw [h.phase, rank_configure]
    exact Nat.le_max_right _ _
  have hfeeds {u : Session} (h : Evolves p s u) (htarget : operation.target = .uninitialized) :
      Feeds (if operation.target = .uninitialized then s else configure p s) u ∧
        u = u.advance operation.target := by
    rw [if_pos htarget, htarget]
    exact ⟨h.feeds, (advance_of_le (Nat.zero_le _)).symm⟩
  cases operation with
  | configure => exact ⟨_, .refl _, (hconfigured (.refl _)).symm⟩
  | activate path =>
    have hload : Feeds (configure p s) (activate p path s).2 :=
      (evolves_loadSource path 0 _).feeds
    exact ⟨_, hload, (hconfigured hload).symm⟩
  | start entry =>
    exact ⟨_, (((evolves_preload _).trans (evolves_loadSource entry 0 _)).trans
      (evolves_loadDiscovered _)).feeds, rfl⟩
  | loadSource path depth => exact ⟨_, hfeeds (evolves_loadSource path depth s) rfl⟩
  | probe stem => exact ⟨_, hfeeds (evolves_probe stem s) rfl⟩
  | loadPackage name => exact ⟨_, hfeeds (evolves_loadPackage name s) rfl⟩
  | preload => exact ⟨_, hfeeds (evolves_preload s) rfl⟩
  | loadDiscovered => exact ⟨_, hfeeds (evolves_loadDiscovered s) rfl⟩
  | crawl path depth => exact ⟨_, hfeeds (evolves_crawl path depth s) rfl⟩
  | register path content =>
    exact ⟨_, feeds_register p path content s, (advance_of_le (Nat.zero_le _)).symm⟩

theorem rank_perform (p : Project) (s : Session) (operation : Operation) :
    (perform p s operation).2.phase.rank = max s.phase.rank operation.target.rank := by
  obtain ⟨u, hfeeds, hperform⟩ := exists_feeds_perform p s operation
  rw [hperform, rank_advance, hfeeds.phase]
  split
  · rfl
  · next h =>
    have hrank : Phase.configured.rank ≤ operation.target.rank := rank_pos h
    rw [rank_configure, Nat.max_assoc, Nat.max_eq_right hrank]

theorem phase_perform_eq_uninitialized_iff (p : Project) (s : Session) (operation : Operation) :
    (perform p s operation).2.phase = .uninitialized ↔
      s.phase = .uninitialized ∧ operation.target = .uninitialized := by
  rw [← rank_eq_zero_iff, rank_perform, Nat.max_eq_zero_iff, rank_eq_zero_iff, rank_eq_zero_iff]

/-- An operation either takes the session out of the first phase: then it loads the configuration,
hands its options to the engine, and only then feeds the engine. Or it does not, and the
configuration stays as it is while the engine is fed. -/
theorem perform_cases (p : Project) (s : Session) (operation : Operation) :
    let t := (perform p s operation).2
    ∃ fed, (∀ c ∈ fed, EngineCall.isConfigure c = false) ∧
      ((s.phase = .uninitialized ∧ t.phase ≠ .uninitialized ∧
          t.config = (Config.load p.files p.settings.packageRoot).1 ∧
          t.engine = s.engine.callEach (.configure t.config.options :: fed)) ∨
        ((t.phase = .uninitialized ↔ s.phase = .uninitialized) ∧ t.config = s.config ∧
          t.engine = s.engine.callEach fed)) := by
  intro t
  have hphase := phase_perform_eq_uninitialized_iff p s operation
  obtain ⟨u, hfeeds, hperform⟩ := exists_feeds_perform p s operation
  obtain ⟨fed, hfed, hengine⟩ := hfeeds.engine
  obtain ⟨later, hlater⟩ := exists_advance_eq u operation.target
  have ht : t = { u with phase := later } := hperform.trans hlater
  have hconfig : t.config = u.config := by rw [ht]
  have htengine : t.engine = u.engine := by rw [ht]
  refine ⟨fed, hfed, ?_⟩
  rw [hconfig, htengine, hfeeds.config, hengine]
  by_cases htarget : operation.target = .uninitialized
  · rw [if_pos htarget]
    exact .inr ⟨by rw [hphase, htarget]; simp, rfl, rfl⟩
  rw [if_neg htarget]
  by_cases hs : s.phase = .uninitialized
  · rw [configure_of_uninitialized p hs]
    exact .inl ⟨hs, fun ht => htarget (hphase.1 ht).2, rfl, rfl⟩
  · rw [configure_of_ne p hs]
    exact .inr ⟨by rw [hphase]; simp [hs], rfl, rfl⟩

/-! ## Runs over changing files -/

/-- The session after a list of operations, each with the files that are there at its time. -/
def runOver (p : Project) (s : Session) (steps : List (Store × Operation)) : Session :=
  steps.foldl (fun s step => (perform (p.on step.1) s step.2).2) s

/-- Over files that stay as they are it is a run as before. -/
theorem runOver_map (p : Project) (s : Session) (operations : List Operation) :
    runOver p s (operations.map (p.files, ·)) = run p s operations :=
  List.foldl_map

/-- What every operation keeps over all files is kept by a run over changing files. -/
theorem runOver_invariant {I : Session → Prop}
    (hperform : ∀ files operation {s : Session}, I s → I (perform (p.on files) s operation).2)
    (steps : List (Store × Operation)) (hs : I s) : I (runOver p s steps) := by
  induction steps generalizing s with
  | nil => exact hs
  | cons step steps ih => exact ih (hperform step.1 step.2 hs)

/-! ## The invariant -/

/-- The options that a session has given to its engine, as the calls that gave them. -/
def given (s : Session) : List EngineCall :=
  if s.phase = .uninitialized then [] else [.configure s.config.options]

/-- The engine and the configuration are as the phase has it. -/
structure Configured (s : Session) : Prop where
  engine : s.engine = Engine.callEach {} s.engine.calls
  calls : s.engine.calls.filter EngineCall.isConfigure = given s
  config : s.phase = .uninitialized → s.config = .default
  aliases : s.config.aliases = .ofTable s.config.options.paths s.config.options.baseUrl
  builtIn : s.config.source = .builtIn → s.config = .default

theorem configured_new : Configured new :=
  ⟨rfl, rfl, fun _ => rfl, rfl, fun _ => rfl⟩

theorem filter_isConfigure_eq_nil {fed : List EngineCall}
    (h : ∀ c ∈ fed, c.isConfigure = false) : fed.filter EngineCall.isConfigure = [] :=
  List.filter_eq_nil_iff.2 fun c hc => by simp [h c hc]

namespace Configured

theorem perform (h : Configured s) (p : Project) (operation : Operation) :
    Configured (perform p s operation).2 := by
  obtain ⟨fed, hfed, ⟨hs, ht, hconfig, hengine⟩ | ⟨hphase, hconfig, hengine⟩⟩ :=
    perform_cases p s operation
  · have hgiven := h.calls
    rw [given, if_pos hs] at hgiven
    refine ⟨?_, ?_, fun h => absurd h ht, ?_, fun h => ?_⟩
    · rw [hengine, Engine.calls_callEach, Engine.callEach_append, ← h.engine]
    · rw [given, if_neg ht, hengine, Engine.calls_callEach, List.filter_append, hgiven,
        List.filter_cons_of_pos rfl, filter_isConfigure_eq_nil hfed, List.nil_append]
    · rw [hconfig]
      exact Config.load_aliases _ _
    · rw [hconfig] at h ⊢
      exact Config.load_eq_default h
  · refine ⟨?_, ?_, ?_, hconfig ▸ h.aliases, hconfig ▸ h.builtIn⟩
    · rw [hengine, Engine.calls_callEach, Engine.callEach_append, ← h.engine]
    · rw [hengine, Engine.calls_callEach, List.filter_append, filter_isConfigure_eq_nil hfed,
        List.append_nil, h.calls, given, given, hconfig]
      simp only [hphase]
    · rw [hphase, hconfig]
      exact h.config

theorem runOver (p : Project) (steps : List (Store × Operation)) :
    Configured (runOver p new steps) :=
  runOver_invariant (fun files operation _ h => h.perform (p.on files) operation) steps
    configured_new

/-- The engine holds the options of the session, which it was given once, or it has none yet. -/
theorem options (h : Configured s) :
    (s.engine.options = if s.phase = .uninitialized then none else some s.config.options) ∧
      s.engine.updates = if s.phase = .uninitialized then 0 else 1 := by
  have hengine := Engine.options_callEach {} s.engine.calls
  rw [← h.engine, h.calls, given] at hengine
  rw [hengine.1, hengine.2]
  constructor <;> split <;> rfl

/-- Once the session is configured, its options are among the calls of the engine. -/
theorem configure_mem_calls (h : Configured s) (hs : s.phase ≠ .uninitialized) :
    EngineCall.configure s.config.options ∈ s.engine.calls := by
  have hmem : EngineCall.configure s.config.options ∈
      s.engine.calls.filter EngineCall.isConfigure := by
    rw [h.calls, given, if_neg hs]
    exact List.mem_singleton_self _
  exact List.mem_of_mem_filter hmem

/-- An operation that configures the session feeds nothing to the engine that does not already have
the options. -/
theorem configure_before (h : Configured s) (p : Project) {operation : Operation}
    (htarget : operation.target ≠ .uninitialized) {before after : List EngineCall}
    {c : EngineCall} :
    let t := (Session.perform p s operation).2
    t.engine.calls = s.engine.calls ++ before ++ c :: after →
      c = .configure t.config.options ∨
        .configure t.config.options ∈ s.engine.calls ++ before := by
  intro t hcalls
  rw [List.append_assoc] at hcalls
  obtain ⟨fed, hfed, ⟨_, _, _, hengine⟩ | ⟨hphase, hconfig, hengine⟩⟩ :=
    perform_cases p s operation
  · have hnew : EngineCall.configure t.config.options :: fed = before ++ c :: after := by
      rw [← List.append_cancel_left_eq s.engine.calls, ← hcalls,
        show t.engine = _ from hengine, Engine.calls_callEach]
    cases before with
    | nil => exact .inl (List.cons.inj hnew).1.symm
    | cons first before =>
      refine .inr (List.mem_append_right _ ?_)
      rw [(List.cons.inj hnew).1]
      exact List.mem_cons_self
  · have hs : s.phase ≠ .uninitialized := by
      intro hs
      exact htarget ((phase_perform_eq_uninitialized_iff p s operation).1 (hphase.2 hs)).2
    rw [show t.config = _ from hconfig]
    exact .inr (List.mem_append_left _ (h.configure_mem_calls hs))

end Configured

/-! ## Main result -/

/-- After any run over changing files, and through any next operation:

the phase becomes the one that the operation aims at, unless the session has come further; the
engine is given options in the step that takes the session out of the first phase, and in no other,
and from then on it holds those of the session; the configuration does not change any more after
that step, and its aliases are at all times those that its options declare; it comes from no
document exactly if there was none in that step or the first one failed, and then it is the default
one, whose aliases cover nothing; and what an activation or a start feeds to the engine is fed after
the options. -/
theorem perform_lifecycle (p : Project) (steps : List (Store × Operation)) (files : Store)
    (next : Operation) :
    let s := runOver p new steps
    let t := (perform (p.on files) s next).2
    (t.phase.rank = max s.phase.rank next.target.rank ∧ s.phase.rank ≤ t.phase.rank) ∧
    (∃ calls, t.engine.calls = s.engine.calls ++ calls ∧
      calls.filter EngineCall.isConfigure =
        if s.phase = .uninitialized ∧ t.phase ≠ .uninitialized then
          [.configure t.config.options]
        else []) ∧
    (s.engine = Engine.callEach {} s.engine.calls ∧
      (s.engine.options = if s.phase = .uninitialized then none else some s.config.options) ∧
      s.engine.updates = if s.phase = .uninitialized then 0 else 1) ∧
    (s.phase = .uninitialized → s.config = .default) ∧
    (s.phase ≠ .uninitialized → t.config = s.config) ∧
    s.aliases = .ofTable s.config.options.paths s.config.options.baseUrl ∧
    (s.phase = .uninitialized → t.phase ≠ .uninitialized →
      (t.config.source = .builtIn ↔
        (∀ name ∈ Config.documentNames, files.present name = false) ∨
        ∃ name, Config.documentNames.find? files.present = some name ∧
          ((∃ fault, files.read name = .error fault) ∨
            ∃ content fault, files.read name = .ok content ∧
              Document.parse content = .error fault))) ∧
    (s.config.source = .builtIn → s.config.options = .default ∧
      ∀ specifier, s.aliases.covers specifier = false) ∧
    (∀ path, next = .activate path ∨ next = .start path →
      ∀ before c after, t.engine.calls = s.engine.calls ++ before ++ c :: after →
        c = .configure t.config.options ∨
          .configure t.config.options ∈ s.engine.calls ++ before) := by
  intro s t
  have hs : Configured s := .runOver p steps
  have hrank : t.phase.rank = max s.phase.rank next.target.rank := rank_perform _ s next
  obtain ⟨fed, hfed, hstep⟩ := perform_cases (p.on files) s next
  refine ⟨⟨hrank, hrank ▸ Nat.le_max_left _ _⟩, ?_, ⟨hs.engine, hs.options⟩, hs.config, ?_,
    hs.aliases, ?_, ?_, ?_⟩
  · rcases hstep with ⟨hphase, ht, _, hengine⟩ | ⟨hphase, _, hengine⟩
    · refine ⟨.configure t.config.options :: fed, ?_, ?_⟩
      · rw [show t.engine = _ from hengine, Engine.calls_callEach]
      · rw [if_pos ⟨hphase, ht⟩, List.filter_cons_of_pos rfl, filter_isConfigure_eq_nil hfed]
    · refine ⟨fed, ?_, ?_⟩
      · rw [show t.engine = _ from hengine, Engine.calls_callEach]
      · rw [if_neg (fun h => h.2 (hphase.2 h.1)), filter_isConfigure_eq_nil hfed]
  · intro hphase
    rcases hstep with ⟨h, _⟩ | ⟨_, hconfig, _⟩
    · exact absurd h hphase
    · exact hconfig
  · intro hphase ht
    rcases hstep with ⟨_, _, hconfig, _⟩ | ⟨h, _⟩
    · rw [show t.config = _ from hconfig]
      exact Config.load_source_eq_builtIn_iff
    · exact absurd (h.2 hphase) ht
  · intro hsource
    have hdefault := hs.builtIn hsource
    rw [Session.aliases, hdefault]
    exact ⟨rfl, Config.covers_default⟩
  · intro path hnext before c after
    refine hs.configure_before (p.on files) ?_
    rcases hnext with h | h <;> simp [h, Operation.target]

/-- A file that is handed in before the session is configured is fed before the options, and the
file that the session is started at behind them. -/
example :
    let p : Project := ⟨(Tree.ofFiles [("a.ts".toList, [])]).store, fun _ => [], {}⟩
    (run p new [.register "b.ts".toList [], .start "a".toList, .configure]).engine.calls =
      [.addSource ⟨"file:///b.ts".toList, []⟩, .openModel ⟨"file:///b.ts".toList, []⟩,
        .configure .default,
        .addSource ⟨"file:///a.ts".toList, []⟩, .openModel ⟨"file:///a.ts".toList, []⟩] := by
  decide +kernel

end Session

end SourceClosure
