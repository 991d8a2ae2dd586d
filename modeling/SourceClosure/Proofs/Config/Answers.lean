import SourceClosure.Proofs.Config.Unfolding

/-!
# A configuration depends on the answers it gets

The questions that are put to the store are remembered, also where documents are loaded. A store
that answers those questions alike leads to the same configuration (`Config.load_congr`).
-/

namespace SourceClosure

/-! ## Answers -/

/-- Both stores answer the question alike. -/
def Access.SameAnswer (files files' : Store) : Access → Prop
  | read path => files.read path = files'.read path
  | list path => files.list path = files'.list path
  | present path => files.present path = files'.present path
  | isFile path => files.isFile path = files'.isFile path

/-- Both stores answer all of the questions alike. -/
def AnswerAlike (files files' : Store) (accesses : List Access) : Prop :=
  ∀ a ∈ accesses, a.SameAnswer files files'

variable {files files' : Store}

theorem AnswerAlike.mono {accesses more : List Access} (h : AnswerAlike files files' more)
    (hsuffix : accesses <:+ more) : AnswerAlike files files' accesses :=
  fun a ha => h a (hsuffix.subset ha)

namespace Config

variable {packageRoot : Text}

/-! ## Questions are only added -/

theorem mergeBases_accesses_grow {load : Text → Walk → Except Failure RawOptions × Walk}
    (hload : ∀ base w, w.accesses <:+ (load base w).2.accesses) (bases : List Text)
    (o : RawOptions) (w : Walk) : w.accesses <:+ (mergeBases load bases o w).2.accesses := by
  induction bases generalizing o w with
  | nil => exact List.suffix_refl _
  | cons base bases ih =>
    rw [mergeBases_cons]
    exact (hload base w).trans (ih _ _)

theorem loadChain_accesses_grow (files : Store) (packageRoot : Text) (levels : Nat) (path : Text)
    (w : Walk) : w.accesses <:+ (loadChain files packageRoot levels path w).2.accesses := by
  induction levels generalizing path w with
  | zero => exact List.suffix_refl _
  | succ levels ih =>
    by_cases hmet : path ∈ w.visited
    · simp [loadChain_of_mem hmet]
    have hask : w.accesses <:+ .read path :: w.accesses := List.suffix_cons _ _
    cases hread : readDocument files path with
    | error failure =>
      rw [loadChain_of_error hmet hread]
      exact hask
    | ok d =>
      rw [loadChain_of_ok hmet hread]
      exact hask.trans (mergeBases_accesses_grow ih _ _ ⟨path :: w.visited, _⟩)

theorem ofDocument_accesses (files : Store) (packageRoot path : Text) (accesses : List Access) :
    (ofDocument files packageRoot path accesses).2 =
      (loadChain files packageRoot (maxExtendsDepth + 1) path ⟨[], accesses⟩).2.accesses := by
  unfold ofDocument
  dsimp only
  split <;> rfl

theorem ofFirst_accesses_grow (files : Store) (packageRoot : Text) (names : List Text)
    (accesses : List Access) : accesses <:+ (ofFirst files packageRoot names accesses).2 := by
  induction names generalizing accesses with
  | nil => exact List.suffix_refl _
  | cons name names ih =>
    have hcons : accesses <:+ .present name :: accesses := List.suffix_cons _ _
    unfold ofFirst
    split
    · rw [ofDocument_accesses]
      exact hcons.trans (loadChain_accesses_grow _ _ _ _ ⟨[], _⟩)
    · exact hcons.trans (ih _)

/-! ## The same answers -/

theorem mergeBases_congr {load load' : Text → Walk → Except Failure RawOptions × Walk}
    (hload : ∀ base w, w.accesses <:+ (load base w).2.accesses)
    (hcongr : ∀ base w, AnswerAlike files files' (load base w).2.accesses →
      load' base w = load base w)
    {bases : List Text} {o : RawOptions} {w : Walk}
    (h : AnswerAlike files files' (mergeBases load bases o w).2.accesses) :
    mergeBases load' bases o w = mergeBases load bases o w := by
  induction bases generalizing o w with
  | nil => rfl
  | cons base bases ih =>
    rw [mergeBases_cons] at h
    have hbase := h.mono (mergeBases_accesses_grow hload bases _ _)
    rw [mergeBases_cons, mergeBases_cons, hcongr base w hbase]
    exact ih h

theorem readDocument_congr {path : Text} (h : files.read path = files'.read path) :
    readDocument files' path = readDocument files path := by
  rw [readDocument, readDocument, h]

theorem loadChain_congr {levels : Nat} {path : Text} {w : Walk}
    (h : AnswerAlike files files' (loadChain files packageRoot levels path w).2.accesses) :
    loadChain files' packageRoot levels path w = loadChain files packageRoot levels path w := by
  induction levels generalizing path w with
  | zero => rfl
  | succ levels ih =>
    by_cases hmet : path ∈ w.visited
    · rw [loadChain_of_mem hmet, loadChain_of_mem hmet]
    cases hread : readDocument files path with
    | error failure =>
      rw [loadChain_of_error hmet hread] at h
      have hanswer : readDocument files' path = .error failure :=
        (readDocument_congr (h (.read path) List.mem_cons_self)).trans hread
      rw [loadChain_of_error hmet hread, loadChain_of_error hmet hanswer]
    | ok d =>
      rw [loadChain_of_ok hmet hread] at h
      have hgrows := loadChain_accesses_grow files packageRoot levels
      have hask := h.mono (mergeBases_accesses_grow hgrows _ _ ⟨path :: w.visited, _⟩)
        (.read path) List.mem_cons_self
      have hanswer : readDocument files' path = .ok d := (readDocument_congr hask).trans hread
      have hmerge := mergeBases_congr hgrows (fun base w => ih) h
      rw [loadChain_of_ok hmet hread, loadChain_of_ok hmet hanswer, hmerge]

theorem ofFirst_congr {names : List Text} {accesses : List Access}
    (h : AnswerAlike files files' (ofFirst files packageRoot names accesses).2) :
    ofFirst files' packageRoot names accesses = ofFirst files packageRoot names accesses := by
  induction names generalizing accesses with
  | nil => rfl
  | cons name names ih =>
    unfold ofFirst at h ⊢
    by_cases hpresent : files.present name = true
    · rw [if_pos hpresent, ofDocument_accesses] at h
      have hask : files.present name = files'.present name :=
        h.mono (loadChain_accesses_grow _ _ _ _ ⟨[], _⟩) (.present name) List.mem_cons_self
      have hchain := loadChain_congr h
      rw [if_pos hpresent, if_pos (hask.symm.trans hpresent), ofDocument, ofDocument, hchain]
    · rw [if_neg hpresent] at h
      have hask : files.present name = files'.present name :=
        h.mono (ofFirst_accesses_grow _ _ _ _) (.present name) List.mem_cons_self
      rw [if_neg hpresent, if_neg (hask ▸ hpresent)]
      exact ih h

theorem load_congr (h : AnswerAlike files files' (load files packageRoot).2) :
    load files' packageRoot = load files packageRoot :=
  ofFirst_congr h

end Config

end SourceClosure
