import SourceClosure.Proofs.Config.Unfolding

/-!
# Where the configuration comes from

A project's configuration is that of the first document that is there, or the default one. It is the
default one exactly if there is no document, or if the first one that is there cannot be read or
parsed (`Config.load_source_eq_builtIn_iff`); what goes wrong in the documents that it extends makes
no difference to that. Either way the aliases are those that the options declare.
-/

namespace SourceClosure

namespace Config

variable {files : Store} {packageRoot path : Text}

/-! ## Documents that fail -/

/-- The document at a path is unreadable or malformed. -/
def Fails (files : Store) (path : Text) : Prop :=
  (∃ fault, files.read path = .error fault) ∨
    ∃ content fault, files.read path = .ok content ∧ Document.parse content = .error fault

theorem isDocument_iff : IsDocument files path ↔ ¬ Fails files path := by
  unfold IsDocument Fails readDocument
  cases files.read path with
  | error fault => simp
  | ok content => cases h : Document.parse content <;> simp [h]

theorem fails_iff : Fails files path ↔ ∃ failure, readDocument files path = .error failure := by
  rw [← not_iff_not, ← isDocument_iff, IsDocument]
  cases readDocument files path <;> simp

/-! ## The two outcomes -/

/-- The configuration by a document is the default one if the document itself fails. -/
theorem ofDocument_of_fails (h : Fails files path) (accesses : List Access) :
    (ofDocument files packageRoot path accesses).1 = default := by
  obtain ⟨failure, hread⟩ := fails_iff.1 h
  have hmet : path ∉ (⟨[], accesses⟩ : Walk).visited := List.not_mem_nil
  rw [ofDocument, loadChain_of_error hmet hread]

theorem ofDocument_of_isDocument (h : IsDocument files path) (accesses : List Access) :
    ∃ o, (ofDocument files packageRoot path accesses).1 =
      .ofOptions (.ofRaw o) (.document path) := by
  obtain ⟨d, hread⟩ := h
  have hmet : path ∉ (⟨[], accesses⟩ : Walk).visited := List.not_mem_nil
  rw [ofDocument, loadChain_of_ok hmet hread]
  exact ⟨_, rfl⟩

theorem ofFirst_cases (files : Store) (packageRoot : Text) (names : List Text)
    (accesses : List Access) :
    (∃ name o, names.find? files.present = some name ∧ IsDocument files name ∧
      (ofFirst files packageRoot names accesses).1 = .ofOptions (.ofRaw o) (.document name)) ∨
    (∀ name ∈ names.find? files.present, Fails files name) ∧
      (ofFirst files packageRoot names accesses).1 = default := by
  induction names generalizing accesses with
  | nil => exact .inr ⟨fun _ h => (nomatch h), rfl⟩
  | cons name names ih =>
    cases hpresent : files.present name with
    | true =>
      rw [List.find?_cons_of_pos hpresent, ofFirst, if_pos hpresent]
      by_cases hdocument : IsDocument files name
      · obtain ⟨o, ho⟩ := ofDocument_of_isDocument hdocument (.present name :: accesses)
        exact .inl ⟨name, o, rfl, hdocument, ho⟩
      · have hfails : Fails files name := by rwa [isDocument_iff, not_not] at hdocument
        exact .inr ⟨fun _ h => Option.some.inj h ▸ hfails, ofDocument_of_fails hfails _⟩
    | false =>
      have hnot : ¬ files.present name = true := by simp [hpresent]
      rw [List.find?_cons_of_neg hnot, ofFirst, if_neg hnot]
      exact ih _

/-! ## The configuration of a project -/

/-- The configuration comes from no document exactly if there is none or the first one fails. -/
theorem load_source_eq_builtIn_iff :
    (load files packageRoot).1.source = .builtIn ↔
      (∀ name ∈ documentNames, files.present name = false) ∨
      ∃ name, documentNames.find? files.present = some name ∧ Fails files name := by
  have hnone : (∀ name ∈ documentNames, files.present name = false) ↔
      documentNames.find? files.present = none := by simp
  rw [hnone]
  rcases ofFirst_cases files packageRoot documentNames [] with
    ⟨name, o, hfind, hdocument, hload⟩ | ⟨hfails, hload⟩
  · have hsource : (load files packageRoot).1.source = .document name :=
      congrArg Config.source hload
    simp [hsource, hfind, isDocument_iff.1 hdocument]
  · have hsource : (load files packageRoot).1.source = .builtIn := congrArg Config.source hload
    cases hfind : documentNames.find? files.present with
    | none => simp [hsource]
    | some name => simp [hsource, hfails name hfind]

/-- A configuration that comes from no document is the default one. -/
theorem load_eq_default (h : (load files packageRoot).1.source = .builtIn) :
    (load files packageRoot).1 = default := by
  rcases ofFirst_cases files packageRoot documentNames [] with ⟨name, o, _, _, hload⟩ | ⟨_, hload⟩
  · rw [show (load files packageRoot).1 = _ from hload] at h
    cases h
  · exact hload

/-- The aliases are those that the options declare. -/
theorem load_aliases (files : Store) (packageRoot : Text) :
    (load files packageRoot).1.aliases =
      .ofTable (load files packageRoot).1.options.paths
        (load files packageRoot).1.options.baseUrl := by
  rcases ofFirst_cases files packageRoot documentNames [] with ⟨name, o, _, _, hload⟩ | ⟨_, hload⟩
  all_goals
    rw [show (load files packageRoot).1 = _ from hload]
    rfl

/-- The default configuration has no aliases. -/
theorem covers_default (specifier : Text) : default.aliases.covers specifier = false :=
  rfl

end Config

end SourceClosure
