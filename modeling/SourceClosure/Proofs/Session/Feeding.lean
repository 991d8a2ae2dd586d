import SourceClosure.Proofs.Session.Change

/-!
# What the engine was fed

The corpus, the sources of the engine and its models are three lists that a session keeps side by
side. They stay in step whatever is asked of the session: the sources are the corpus under the
files' URIs, and the models are the sources of live files. Since the corpus holds every path once
and only in normal form, no URI is fed twice.
-/

namespace SourceClosure

/-- The file as it is fed to an engine. -/
def CorpusFile.source (f : CorpusFile) : Source :=
  ⟨Path.toUri f.path, f.content⟩

namespace Session

variable {p : Project}

/-! ## The invariant -/

/-- The engine was fed the corpus, file by file and in order, and nothing else. -/
structure InStep (p : Project) (s : Session) : Prop where
  distinct : (s.corpus.map CorpusFile.path).Nodup
  normal : ∀ f ∈ s.corpus, Path.toProject f.path = f.path
  sources : s.engine.sources = s.corpus.map CorpusFile.source
  models : s.engine.models =
    (s.corpus.filter (fun f => p.isLive f.path)).map CorpusFile.source

theorem inStep_new : InStep p new :=
  ⟨List.nodup_nil, by simp [new], rfl, rfl⟩

/-- Nothing but the corpus and what the engine was fed matters. -/
theorem InStep.congr {s t : Session} (h : InStep p s) (hcorpus : t.corpus = s.corpus)
    (hsources : t.engine.sources = s.engine.sources)
    (hmodels : t.engine.models = s.engine.models) : InStep p t where
  distinct := hcorpus ▸ h.distinct
  normal := hcorpus ▸ h.normal
  sources := by rw [hsources, hcorpus, h.sources]
  models := by rw [hmodels, hcorpus, h.models]

theorem InStep.register {s : Session} (h : InStep p s) (path content : Text) :
    InStep p (s.register p path content).2 := by
  cases hhas : s.has (Path.toProject path) with
  | true => rwa [register_of_has hhas]
  | false =>
    have hfresh : Path.toProject path ∉ s.corpus.map CorpusFile.path := by
      intro hmem
      obtain ⟨f, hf, hpath⟩ := List.mem_map.1 hmem
      rw [has_iff.2 ⟨f, hf, hpath⟩] at hhas
      cases hhas
    rw [register_of_not_has hhas]
    refine ⟨?_, ?_, ?_, ?_⟩
    · rw [List.map_append, List.map_singleton, List.nodup_append]
      refine ⟨h.distinct, by simp, fun x hx y hy hxy => hfresh ?_⟩
      rw [List.mem_singleton] at hy
      rwa [hxy, hy] at hx
    · intro f hf
      rcases List.mem_append.1 hf with hf | hf
      · exact h.normal f hf
      · rw [List.mem_singleton] at hf
        rw [hf]
        exact Path.toProject_toProject path
    · rw [List.map_append, ← h.sources]
      dsimp only
      split <;> rfl
    · rw [List.filter_append, List.map_append, ← h.models]
      cases hlive : p.isLive (Path.toProject path) with
      | true => simp [hlive, Engine.openModel, Engine.addSource, CorpusFile.source]
      | false => simp [hlive, Engine.addSource]

theorem InStep.change {s t : Session} (hchange : Change p s t) (h : InStep p s) :
    InStep p t := by
  cases hchange with
  | note => exact h.congr rfl rfl rfl
  | feed => exact h.register _ _
  | discover =>
    refine h.congr (discover_corpus _ s) ?_ ?_
    · rw [discover_engine]
    · rw [discover_engine]
  | take => exact h.congr rfl rfl rfl
  | requeue => exact h.congr rfl rfl rfl

theorem InStep.advance {s : Session} (h : InStep p s) (phase : Phase) :
    InStep p (s.advance phase) := by
  unfold Session.advance
  split
  · exact h.congr rfl rfl rfl
  · exact h

theorem InStep.configure {s : Session} (h : InStep p s) : InStep p (configure p s) := by
  unfold Session.configure
  dsimp only
  split
  · refine InStep.advance ?_ .configured
    exact h.congr rfl rfl rfl
  · exact h

theorem InStep.perform {s : Session} (h : InStep p s) (operation : Operation) :
    InStep p (perform p s operation).2 := by
  refine perform_invariant InStep.change InStep.configure ?_ ?_ h
  · intro t phase ht
    exact ht.advance phase
  · intro path content _ t ht
    exact ht.register path content

/-- No URI is fed twice. -/
theorem InStep.uris_nodup {s : Session} (h : InStep p s) :
    (s.engine.sources.map Source.uri).Nodup := by
  have huris : s.engine.sources.map Source.uri =
      (s.corpus.map CorpusFile.path).map Path.toUri := by
    rw [h.sources, List.map_map, List.map_map]
    rfl
  have hnormal : ∀ path ∈ s.corpus.map CorpusFile.path, Path.toProject path = path := by
    intro path hpath
    obtain ⟨f, hf, rfl⟩ := List.mem_map.1 hpath
    exact h.normal f hf
  rw [huris]
  refine List.pairwise_map.2 (h.distinct.imp_of_mem ?_)
  intro x y hx hy hne huri
  exact hne (Path.eq_of_toUri_eq (hnormal x hx) (hnormal y hy) huri)

/-! ## Main result -/

/-- Through every run of a session the engine and the corpus agree: the corpus holds distinct
project paths, the engine's sources are the corpus in order, with no URI twice, and its models
are those of them that are live; and whatever is asked next only adds to the corpus. -/
theorem engine_mirrors_corpus (p : Project) (operations : List Operation) (next : Operation) :
    let s := run p new operations
    (s.corpus.map CorpusFile.path).Nodup ∧
      (∀ f ∈ s.corpus, Path.toProject f.path = f.path) ∧
      s.engine.sources = s.corpus.map (fun f => ⟨Path.toUri f.path, f.content⟩) ∧
      (s.engine.sources.map Source.uri).Nodup ∧
      s.engine.models = (s.corpus.filter (fun f => p.isLive f.path)).map
        (fun f => ⟨Path.toUri f.path, f.content⟩) ∧
      s.corpus <+: (perform p s next).2.corpus := by
  intro s
  have h : InStep p s := run_invariant (fun operation _ _ h => h.perform operation) inStep_new
  exact ⟨h.distinct, h.normal, h.sources, h.uris_nodup, h.models, corpus_prefix_perform s next⟩

end Session

end SourceClosure
