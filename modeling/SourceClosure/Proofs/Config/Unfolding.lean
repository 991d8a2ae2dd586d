import Mathlib.Data.List.Basic
import Mathlib.Data.List.Chain
import Mathlib.Data.Set.Function
import SourceClosure.Config
import SourceClosure.Proofs.Options.Inherit
import SourceClosure.Store.Tree

/-!
# Documents that extend documents

The options of a document are meant to be those of a tree: the document, below it the documents that
it extends, below each of them those that it extends in turn, and no document below itself
(`Config.Unfolds`). Loading does not walk through this tree. It looks at each path once and skips
those that it has met before, also where they are not below themselves. What it skips adds nothing,
since all of it was merged in earlier and with precedence (`Config.loadChain_agrees`), so that the
options come out the same (`Config.unfolds_loadChain`). This takes paths for documents: a document
with two spellings of its path is met as if it were two
(`Config.not_unfolds_loadChain_respelled`).
-/

namespace SourceClosure

namespace Config

variable {files : Store} {packageRoot : Text}

/-! ## The tree -/

/-- The options that the document at a path gives itself. -/
def ownOptions (path : Text) (d : Document) : RawOptions :=
  rebase (Path.directory path) d.rawOptions

/-- The paths of the documents that the document at a path extends, those that take precedence
first. -/
def basePaths (packageRoot path : Text) (d : Document) : List Text :=
  d.extended.reverse.map (basePath (Path.directory path) packageRoot)

/-- There is a document at the path. -/
def IsDocument (files : Store) (path : Text) : Prop :=
  ∃ d, readDocument files path = .ok d

/-- The document at the first path extends the one at the second. -/
def Extends (files : Store) (packageRoot path base : Text) : Prop :=
  ∃ d, readDocument files path = .ok d ∧ base ∈ basePaths packageRoot path d

/-- What the document at a path gives below the documents of the chain, each of which extends the
one before it in the list. Two paths with the same key stand for the same document. A document that
is in the chain gives nothing, and neither does one that cannot be read; any other one gives its own
options, and what is unset in them is filled in from the documents that it extends. -/
inductive Unfolds (files : Store) (packageRoot : Text) (key : Text → Text) :
    List Text → Text → Option RawOptions → Prop where
  | recurs {chain : List Text} {path : Text} :
      key path ∈ chain.map key → Unfolds files packageRoot key chain path none
  | failed {chain : List Text} {path : Text} {failure : Failure} :
      key path ∉ chain.map key → readDocument files path = .error failure →
      Unfolds files packageRoot key chain path none
  | read {chain : List Text} {path : Text} {d : Document} (inherited : Text → Option RawOptions) :
      key path ∉ chain.map key → readDocument files path = .ok d →
      (∀ base ∈ basePaths packageRoot path d,
        Unfolds files packageRoot key (path :: chain) base (inherited base)) →
      Unfolds files packageRoot key chain path
        (some (.merge (ownOptions path d :: (basePaths packageRoot path d).filterMap inherited)))

/-- There is only one thing that a document gives. -/
theorem Unfolds.unique {key : Text → Text} {chain : List Text} {path : Text}
    {o o' : Option RawOptions} (h : Unfolds files packageRoot key chain path o)
    (h' : Unfolds files packageRoot key chain path o') : o = o' := by
  induction h generalizing o' with
  | recurs hmem =>
    cases h' with
    | recurs => rfl
    | failed hnot => exact absurd hmem hnot
    | read _ hnot => exact absurd hmem hnot
  | failed hnot hread =>
    cases h' with
    | recurs hmem => exact absurd hmem hnot
    | failed => rfl
    | read _ _ hread' => exact nomatch hread.symm.trans hread'
  | @read chain path d inherited hnot hread _ ih =>
    cases h' with
    | recurs hmem => exact absurd hmem hnot
    | failed _ hread' => exact nomatch hread.symm.trans hread'
    | read inherited' _ hread' hbases =>
      obtain rfl := Except.ok.inj (hread.symm.trans hread')
      have heq : (basePaths packageRoot path d).filterMap inherited =
          (basePaths packageRoot path d).filterMap inherited' :=
        List.filterMap_congr (fun base hbase => ih base hbase (hbases base hbase))
      rw [heq]

/-- Whatever tells the paths apart that documents lead to may be the key. -/
theorem Unfolds.of_injOn {key : Text → Text} {paths : Set Text} (hkey : Set.InjOn key paths)
    (hclosed : ∀ p ∈ paths, ∀ q, Extends files packageRoot p q → q ∈ paths)
    {chain : List Text} {path : Text} {o : Option RawOptions}
    (h : Unfolds files packageRoot id chain path o) (hpath : path ∈ paths)
    (hchain : ∀ p ∈ chain, p ∈ paths) : Unfolds files packageRoot key chain path o := by
  have hmem {chain : List Text} {path : Text} (hpath : path ∈ paths)
      (hchain : ∀ p ∈ chain, p ∈ paths) : key path ∈ chain.map key ↔ path ∈ chain := by
    refine ⟨fun h => ?_, List.mem_map_of_mem⟩
    obtain ⟨p, hp, heq⟩ := List.mem_map.1 h
    exact hkey (hchain p hp) hpath heq ▸ hp
  induction h with
  | recurs h => exact .recurs ((hmem hpath hchain).2 (by simpa using h))
  | failed h hread => exact .failed (mt (hmem hpath hchain).1 (by simpa using h)) hread
  | @read chain path d inherited h hread _ ih =>
    refine .read inherited (mt (hmem hpath hchain).1 (by simpa using h)) hread ?_
    intro base hbase
    have hbase' : base ∈ paths := hclosed path hpath base ⟨d, hread, hbase⟩
    exact ih base hbase hbase' (List.forall_mem_cons.2 ⟨hpath, hchain⟩)

/-! ## Rows of documents -/

/-- A row of documents each of which extends the next, without repetition. -/
structure IsExtendsRow (files : Store) (packageRoot : Text) (row : List Text) : Prop where
  links : row.IsChain (Extends files packageRoot)
  nodup : row.Nodup
  documents : ∀ p ∈ row, IsDocument files p

/-- All rows from the path on that keep clear of the chain have at most this many documents. -/
def HasRoom (files : Store) (packageRoot : Text) (levels : Nat) (chain : List Text) (path : Text) :
    Prop :=
  ∀ row, IsExtendsRow files packageRoot (path :: row) → (path :: row).Disjoint chain →
    (path :: row).length ≤ levels

theorem HasRoom.pos {levels : Nat} {chain : List Text} {path : Text}
    (h : HasRoom files packageRoot levels chain path) (hdocument : IsDocument files path)
    (hpath : path ∉ chain) : 0 < levels := by
  refine h [] ⟨List.isChain_singleton _, by simp, ?_⟩ ?_
  · simpa using hdocument
  · simpa using hpath

/-- A document leaves room for those that it extends. -/
theorem HasRoom.extends {levels : Nat} {chain : List Text} {path base : Text}
    (h : HasRoom files packageRoot (levels + 1) chain path) (hpath : path ∉ chain)
    (hbase : Extends files packageRoot path base) :
    HasRoom files packageRoot levels (path :: chain) base := by
  intro row hrow hdisjoint
  obtain ⟨hnot, hclear⟩ := List.disjoint_cons_right.1 hdisjoint
  have hdocument : IsDocument files path := hbase.imp (fun _ h => h.1)
  have hlonger : (path :: base :: row).length ≤ levels + 1 := by
    refine h (base :: row) ⟨?_, ?_, ?_⟩ (List.disjoint_cons_left.2 ⟨hpath, hclear⟩)
    · exact List.isChain_cons_cons.2 ⟨hbase, hrow.links⟩
    · exact List.nodup_cons.2 ⟨hnot, hrow.nodup⟩
    · exact List.forall_mem_cons.2 ⟨hdocument, hrow.documents⟩
  exact Nat.le_of_succ_le_succ hlonger

/-- What the document at a path gives below the documents of the chain, by walking through the tree
down to a number of levels. -/
def unfolded (files : Store) (packageRoot : Text) (key : Text → Text) :
    (levels : Nat) → List Text → Text → Option RawOptions
  | 0, _, _ => none
  | levels + 1, chain, path =>
    if key path ∈ chain.map key then none
    else match readDocument files path with
      | .error _ => none
      | .ok d =>
        let inherited := unfolded files packageRoot key levels (path :: chain)
        some (.merge (ownOptions path d :: (basePaths packageRoot path d).filterMap inherited))

/-- Where rows are bounded, the tree has no more levels than that. -/
theorem HasRoom.unfolds {key : Text → Text} {levels : Nat} {chain : List Text} {path : Text}
    (h : HasRoom files packageRoot levels chain path) :
    Unfolds files packageRoot key chain path
      (unfolded files packageRoot key levels chain path) := by
  induction levels generalizing chain path with
  | zero =>
    by_cases hkey : key path ∈ chain.map key
    · exact .recurs hkey
    cases hread : readDocument files path with
    | error failure => exact .failed hkey hread
    | ok d => exact absurd (h.pos ⟨d, hread⟩ (mt List.mem_map_of_mem hkey)) (Nat.lt_irrefl 0)
  | succ levels ih =>
    by_cases hkey : key path ∈ chain.map key
    · rw [unfolded, if_pos hkey]
      exact .recurs hkey
    rw [unfolded, if_neg hkey]
    cases hread : readDocument files path with
    | error failure => exact .failed hkey hread
    | ok d =>
      refine .read _ hkey hread (fun base hbase => ih ?_)
      exact h.extends (mt List.mem_map_of_mem hkey) ⟨d, hread, hbase⟩

/-! ## Closed lists of documents -/

/-- The paths of the documents that the document at a path extends, if there is one. -/
def basesAt (files : Store) (packageRoot path : Text) : List Text :=
  match readDocument files path with
  | .error _ => []
  | .ok d => basePaths packageRoot path d

theorem extends_iff {path base : Text} :
    Extends files packageRoot path base ↔ base ∈ basesAt files packageRoot path := by
  unfold Extends basesAt
  cases readDocument files path <;> simp

/-- The list of paths holds all that its documents extend. -/
def IsClosed (files : Store) (packageRoot : Text) (paths : List Text) : Prop :=
  ∀ p ∈ paths, ∀ q ∈ basesAt files packageRoot p, q ∈ paths

instance (files : Store) (packageRoot : Text) (paths : List Text) :
    Decidable (IsClosed files packageRoot paths) :=
  inferInstanceAs (Decidable (∀ p ∈ paths, ∀ q ∈ basesAt files packageRoot p, q ∈ paths))

/-- The paths of the document at a path and of all that it leads to. -/
def leadsTo (files : Store) (packageRoot path : Text) : Set Text :=
  {p | Relation.ReflTransGen (Extends files packageRoot) path p}

namespace IsClosed

variable {paths : List Text} {path : Text}

theorem mem_of_leadsTo (h : IsClosed files packageRoot paths) (hpath : path ∈ paths) {p : Text}
    (hp : p ∈ leadsTo files packageRoot path) : p ∈ paths := by
  induction hp with
  | refl => exact hpath
  | tail _ hlink ih => exact h _ ih _ (extends_iff.1 hlink)

/-- Rows of documents from a closed list are no longer than the list. -/
theorem length_lt (h : IsClosed files packageRoot paths) (hpath : path ∈ paths) {row : List Text}
    (hrow : IsExtendsRow files packageRoot (path :: row)) : row.length < paths.length := by
  have hsub : ∀ p ∈ path :: row, p ∈ paths := by
    have hlinks := hrow.links
    clear hrow
    induction row generalizing path with
    | nil => simpa using hpath
    | cons base row ih =>
      obtain ⟨hlink, hlinks⟩ := List.isChain_cons_cons.1 hlinks
      exact List.forall_mem_cons.2 ⟨hpath, ih (h path hpath base (extends_iff.1 hlink)) hlinks⟩
  exact hrow.nodup.length_le_of_subset hsub

end IsClosed

/-! ## Loading -/

/-- What a load adds to options. -/
def given (loaded : Except Failure RawOptions) : RawOptions :=
  loaded.toOption.getD {}

theorem mergeBases_cons (load : Text → Walk → Except Failure RawOptions × Walk) (base : Text)
    (bases : List Text) (o : RawOptions) (w : Walk) :
    mergeBases load (base :: bases) o w =
      mergeBases load bases (o.inherit (given (load base w).1)) (load base w).2 := by
  simp only [mergeBases, List.foldl_cons]
  cases (load base w).1 with
  | error failure => rw [given, Except.toOption, Option.getD_none, RawOptions.inherit_empty]
  | ok inherited => rfl

theorem merge_filterMap_cons (inherited : Text → Option RawOptions) (o : RawOptions) (base : Text)
    (bases : List Text) :
    RawOptions.merge (o :: (base :: bases).filterMap inherited) =
      .merge (o.inherit ((inherited base).getD {}) :: bases.filterMap inherited) := by
  cases h : inherited base with
  | none => rw [List.filterMap_cons_none h, Option.getD_none, RawOptions.inherit_empty]
  | some i => rw [List.filterMap_cons_some h]; rfl

/-- What holds between two steps of a load below the documents of the chain. All that was merged so
far, from the root on, is `merged`. A document that was met and is not in the chain is done with:
its own options add nothing to what was merged, and the documents that it extends were met. -/
structure IsSettled (files : Store) (packageRoot : Text) (visited chain : List Text)
    (merged : RawOptions) : Prop where
  chain_met : ∀ p ∈ chain, p ∈ visited
  own : ∀ p ∈ visited, p ∉ chain → ∀ d, readDocument files p = .ok d →
    merged.Covers (ownOptions p d)
  bases_met : ∀ p ∈ visited, p ∉ chain → ∀ base, Extends files packageRoot p base →
    IsDocument files base → base ∈ visited

namespace IsSettled

variable {visited chain : List Text} {merged : RawOptions}

theorem inherit (h : IsSettled files packageRoot visited chain merged) (o : RawOptions) :
    IsSettled files packageRoot visited chain (merged.inherit o) :=
  ⟨h.chain_met, fun p hp hnot d hread => (h.own p hp hnot d hread).mono o, h.bases_met⟩

/-- A document that was met goes into the chain. -/
theorem enter (h : IsSettled files packageRoot visited chain merged) (path : Text) :
    IsSettled files packageRoot (path :: visited) (path :: chain) merged := by
  have hvisited {p : Text} (hp : p ∈ path :: visited) (hnot : p ∉ path :: chain) :
      p ∈ visited ∧ p ∉ chain := by
    simp only [List.mem_cons, not_or] at hp hnot
    exact ⟨hp.resolve_left hnot.1, hnot.2⟩
  refine ⟨fun p hp => ?_, fun p hp hnot => ?_, fun p hp hnot base hbase hdocument => ?_⟩
  · exact (List.mem_cons.1 hp).elim (fun heq => heq ▸ List.mem_cons_self)
      (fun hp => List.mem_cons_of_mem path (h.chain_met p hp))
  · exact h.own p (hvisited hp hnot).1 (hvisited hp hnot).2
  · have hmet := h.bases_met p (hvisited hp hnot).1 (hvisited hp hnot).2 base hbase hdocument
    exact List.mem_cons_of_mem path hmet

/-- A document that is done with leaves the chain. -/
theorem leave {path : Text} (h : IsSettled files packageRoot visited (path :: chain) merged)
    (hown : ∀ d, readDocument files path = .ok d → merged.Covers (ownOptions path d))
    (hbases : ∀ base, Extends files packageRoot path base → IsDocument files base →
      base ∈ visited) :
    IsSettled files packageRoot visited chain merged := by
  have hcases {p : Text} (hnot : p ∉ chain) : p = path ∨ p ∉ path :: chain := by
    by_cases heq : p = path
    · exact .inl heq
    · exact .inr (by simp [heq, hnot])
  refine ⟨fun p hp => h.chain_met p (List.mem_cons_of_mem path hp), ?_, ?_⟩
  · intro p hp hnot d hread
    rcases hcases hnot with rfl | hnot
    · exact hown d hread
    · exact h.own p hp hnot d hread
  · intro p hp hnot base hbase hdocument
    rcases hcases hnot with rfl | hnot
    · exact hbases base hbase hdocument
    · exact h.bases_met p hp hnot base hbase hdocument

/-- What was met adds nothing any more, with all that stands below it. -/
theorem covers (h : IsSettled files packageRoot visited chain merged) {longer : List Text}
    (hlonger : ∀ p ∈ chain, p ∈ longer) {path : Text} {o : Option RawOptions}
    (ho : Unfolds files packageRoot id longer path o)
    (hpath : IsDocument files path → path ∈ visited) : merged.Covers (o.getD {}) := by
  induction ho with
  | recurs => exact RawOptions.covers_empty merged
  | failed => exact RawOptions.covers_empty merged
  | @read longer path d inherited hnot hread _ ih =>
    rw [List.map_id, id] at hnot
    have hmet := hpath ⟨d, hread⟩
    have hclear : path ∉ chain := mt (hlonger path) hnot
    have hbases : ∀ base ∈ basePaths packageRoot path d,
        merged.Covers ((inherited base).getD {}) := by
      intro base hbase
      refine ih base hbase (fun p hp => List.mem_cons_of_mem path (hlonger p hp)) ?_
      exact h.bases_met path hmet hclear base ⟨d, hread, hbase⟩
    have hmerge {bases : List Text} {own : RawOptions} (hown : merged.Covers own)
        (hbases : ∀ base ∈ bases, merged.Covers ((inherited base).getD {})) :
        merged.Covers (.merge (own :: bases.filterMap inherited)) := by
      induction bases generalizing own with
      | nil => exact hown
      | cons base bases ih =>
        obtain ⟨hbase, hbases⟩ := List.forall_mem_cons.1 hbases
        rw [merge_filterMap_cons]
        exact ih (hown.inherit hbase) hbases
    exact hmerge (h.own path hmet hclear d hread) hbases

end IsSettled

/-- How a step of a load went that gave `o` where `expected` was to come: behind what was merged
before, both come to the same. -/
structure Agrees (files : Store) (packageRoot : Text) (chain : List Text) (merged o : RawOptions)
    (w w' : Walk) (expected : RawOptions) : Prop where
  same : merged.inherit o = merged.inherit expected
  settled : IsSettled files packageRoot w'.visited chain (merged.inherit o)
  grows : ∀ p ∈ w.visited, p ∈ w'.visited

/-- The load of the document at a path agrees with what it is said to give, and a document at the
path is met by then. -/
structure LoadAgrees (files : Store) (packageRoot : Text) (chain : List Text) (merged : RawOptions)
    (path : Text) (w : Walk) (loaded : Except Failure RawOptions × Walk) (o : Option RawOptions) :
    Prop extends
    Agrees files packageRoot chain merged (given loaded.1) w loaded.2 (o.getD {}) where
  met : IsDocument files path → path ∈ loaded.2.visited

/-- If loading each base agrees, so does merging them in. -/
theorem mergeBases_agrees {load : Text → Walk → Except Failure RawOptions × Walk}
    {inherited : Text → Option RawOptions} {chain : List Text} {bases : List Text}
    (hload : ∀ base ∈ bases, ∀ merged w, IsSettled files packageRoot w.visited chain merged →
      LoadAgrees files packageRoot chain merged base w (load base w) (inherited base))
    {merged o expected : RawOptions} {w : Walk}
    (hsame : merged.inherit o = merged.inherit expected)
    (hsettled : IsSettled files packageRoot w.visited chain (merged.inherit o)) :
    Agrees files packageRoot chain merged (mergeBases load bases o w).1 w
        (mergeBases load bases o w).2 (.merge (expected :: bases.filterMap inherited)) ∧
      (mergeBases load bases o w).1.Covers o ∧
      ∀ base ∈ bases, IsDocument files base → base ∈ (mergeBases load bases o w).2.visited := by
  induction bases generalizing o expected w with
  | nil =>
    refine ⟨⟨hsame, hsettled, fun p hp => hp⟩, RawOptions.covers_self o, ?_⟩
    exact fun base hbase => nomatch hbase
  | cons base bases ih =>
    have hagrees := hload base List.mem_cons_self (merged.inherit o) w hsettled
    have hsame' : merged.inherit (o.inherit (given (load base w).1)) =
        merged.inherit (expected.inherit ((inherited base).getD {})) := by
      calc merged.inherit (o.inherit (given (load base w).1))
          = (merged.inherit o).inherit (given (load base w).1) := by
            rw [RawOptions.inherit_assoc]
        _ = (merged.inherit o).inherit ((inherited base).getD {}) := hagrees.same
        _ = merged.inherit (expected.inherit ((inherited base).getD {})) := by
            rw [hsame, RawOptions.inherit_assoc]
    have hsettled' := RawOptions.inherit_assoc merged o _ ▸ hagrees.settled
    obtain ⟨hrest, hcovers, hbases⟩ :=
      ih (fun b hb => hload b (List.mem_cons_of_mem base hb)) hsame' hsettled'
    rw [mergeBases_cons, merge_filterMap_cons]
    refine ⟨⟨hrest.same, hrest.settled, fun p hp => hrest.grows p (hagrees.grows p hp)⟩, ?_, ?_⟩
    · exact hcovers.of_inherit
    · exact List.forall_mem_cons.2 ⟨fun hdoc => hrest.grows base (hagrees.met hdoc), hbases⟩

theorem loadChain_of_mem {levels : Nat} {path : Text} {w : Walk} (h : path ∈ w.visited) :
    loadChain files packageRoot levels path w = (.error .chained, w) := by
  cases levels with
  | zero => rfl
  | succ levels => simp [loadChain, h]

theorem loadChain_of_error {levels : Nat} {path : Text} {w : Walk} {failure : Failure}
    (h : path ∉ w.visited) (hread : readDocument files path = .error failure) :
    loadChain files packageRoot (levels + 1) path w =
      (.error failure, ⟨path :: w.visited, .read path :: w.accesses⟩) := by
  simp [loadChain, h, hread]

theorem loadChain_of_ok {levels : Nat} {path : Text} {w : Walk} {d : Document}
    (h : path ∉ w.visited) (hread : readDocument files path = .ok d) :
    loadChain files packageRoot (levels + 1) path w =
      let merged := mergeBases (loadChain files packageRoot levels) (basePaths packageRoot path d)
        (ownOptions path d) ⟨path :: w.visited, .read path :: w.accesses⟩
      (.ok merged.1, merged.2) := by
  simp [loadChain, h, hread, basePaths, ownOptions]

/-- A load that gives nothing agrees if the document was met before. -/
theorem agrees_of_mem {chain : List Text} {path : Text} {o : Option RawOptions}
    {merged : RawOptions} {w : Walk} (ho : Unfolds files packageRoot id chain path o)
    (hsettled : IsSettled files packageRoot w.visited chain merged)
    (hmet : IsDocument files path → path ∈ w.visited) :
    LoadAgrees files packageRoot chain merged path w (.error .chained, w) o where
  same := by
    have hcovers := hsettled.covers (fun p hp => hp) ho hmet
    exact (RawOptions.inherit_empty merged).trans hcovers.symm
  settled := hsettled.inherit {}
  grows := fun p hp => hp
  met := hmet

section Fresh

variable {levels : Nat} {chain : List Text} {path : Text} {merged : RawOptions} {w : Walk}
  (hmet : path ∉ w.visited) (hsettled : IsSettled files packageRoot w.visited chain merged)

include hmet hsettled

/-- A load agrees if there is no document. -/
theorem loadChain_agrees_of_error {failure : Failure}
    (hread : readDocument files path = .error failure) :
    LoadAgrees files packageRoot chain merged path w
      (loadChain files packageRoot (levels + 1) path w) none := by
  have hnone (d : Document) : readDocument files path ≠ .ok d := by simp [hread]
  rw [loadChain_of_error hmet hread]
  refine ⟨⟨rfl, ?_, fun p hp => List.mem_cons_of_mem path hp⟩, fun _ => List.mem_cons_self⟩
  refine ((hsettled.enter path).leave ?_ ?_).inherit {}
  · exact fun d h => absurd h (hnone d)
  · exact fun base ⟨d, h, _⟩ => absurd h (hnone d)

/-- The load of a document agrees if the loads of those that it extends do. -/
theorem loadChain_agrees_of_ok {d : Document} {inherited : Text → Option RawOptions}
    (hread : readDocument files path = .ok d)
    (hload : ∀ base ∈ basePaths packageRoot path d, ∀ merged w,
      IsSettled files packageRoot w.visited (path :: chain) merged →
        LoadAgrees files packageRoot (path :: chain) merged base w
          (loadChain files packageRoot levels base w) (inherited base)) :
    LoadAgrees files packageRoot chain merged path w
      (loadChain files packageRoot (levels + 1) path w)
      (some (.merge (ownOptions path d ::
        (basePaths packageRoot path d).filterMap inherited))) := by
  rw [loadChain_of_ok hmet hread]
  obtain ⟨hagrees, hcovers, hmetBases⟩ := mergeBases_agrees hload
    (w := ⟨path :: w.visited, .read path :: w.accesses⟩) rfl
    ((hsettled.enter path).inherit (ownOptions path d))
  refine ⟨⟨hagrees.same, hagrees.settled.leave ?_ ?_, fun p hp => ?_⟩, fun _ => ?_⟩
  · intro d' h
    obtain rfl := Except.ok.inj (hread.symm.trans h)
    exact hcovers.inherit_left merged
  · rintro base ⟨d', h, hbase⟩ hdocument
    obtain rfl := Except.ok.inj (hread.symm.trans h)
    exact hmetBases base hbase hdocument
  · exact hagrees.grows p (List.mem_cons_of_mem path hp)
  · exact hagrees.grows path List.mem_cons_self

end Fresh

/-- Loading a document agrees with what the tree says it gives, whatever was met before. -/
theorem loadChain_agrees {levels : Nat} {chain : List Text} {path : Text} {o : Option RawOptions}
    {merged : RawOptions} {w : Walk} (hroom : HasRoom files packageRoot levels chain path)
    (ho : Unfolds files packageRoot id chain path o)
    (hsettled : IsSettled files packageRoot w.visited chain merged) :
    LoadAgrees files packageRoot chain merged path w (loadChain files packageRoot levels path w)
      o := by
  induction levels generalizing chain path o merged w with
  | zero =>
    refine agrees_of_mem ho hsettled (fun hdocument => ?_)
    by_contra hnot
    exact absurd (hroom.pos hdocument (mt (hsettled.chain_met path) hnot)) (Nat.lt_irrefl 0)
  | succ levels ih =>
    by_cases hmet : path ∈ w.visited
    · rw [loadChain_of_mem hmet]
      exact agrees_of_mem ho hsettled (fun _ => hmet)
    have hpath : path ∉ chain := mt (hsettled.chain_met path) hmet
    have hkey : id path ∉ chain.map id := by simpa using hpath
    cases hread : readDocument files path with
    | error failure =>
      obtain rfl := ho.unique (.failed hkey hread)
      exact loadChain_agrees_of_error hmet hsettled hread
    | ok d =>
      cases ho with
      | recurs h => exact absurd h hkey
      | failed _ h => exact nomatch hread.symm.trans h
      | @read _ _ d' inherited _ h hbases =>
        obtain rfl := Except.ok.inj (hread.symm.trans h)
        -- Each base is loaded below the path, where there is room for one document less.
        refine loadChain_agrees_of_ok hmet hsettled hread (fun base hbase merged w h => ?_)
        exact ih (hroom.extends hpath ⟨d, hread, hbase⟩) (hbases base hbase) h

/-- Let no row of documents from the first one on have more links than the bound on depth allows,
and let the key tell the paths apart that the document leads to, as it does if the key is the path
itself, or if it is the project path and every document is reached by one spelling. Then loading the
document fails exactly if it cannot be read, and else gives what the tree says. -/
theorem unfolds_loadChain {key : Text → Text} {path : Text}
    (hdepth : ∀ row, IsExtendsRow files packageRoot (path :: row) → row.length ≤ maxExtendsDepth)
    (hkey : Set.InjOn key (leadsTo files packageRoot path)) (accesses : List Access) :
    let loaded := (loadChain files packageRoot (maxExtendsDepth + 1) path ⟨[], accesses⟩).1
    Unfolds files packageRoot key [] path loaded.toOption ∧
      (loaded.toOption = none ↔ ¬ IsDocument files path) := by
  have hroom : HasRoom files packageRoot (maxExtendsDepth + 1) [] path :=
    fun row hrow _ => Nat.succ_le_succ (hdepth row hrow)
  have hsettled : IsSettled files packageRoot [] [] {} :=
    ⟨fun p hp => hp, (fun p hp => nomatch hp), (fun p hp => nomatch hp)⟩
  have htree : Unfolds files packageRoot id [] path _ := hroom.unfolds
  obtain ⟨hagrees, -⟩ := loadChain_agrees hroom htree (w := ⟨[], accesses⟩) hsettled
  have hsame := hagrees.same
  rw [RawOptions.empty_inherit, RawOptions.empty_inherit] at hsame
  cases hread : readDocument files path with
  | error failure =>
    rw [loadChain_of_error List.not_mem_nil hread]
    exact ⟨.failed (by simp) hread, by simp [IsDocument, hread, Except.toOption]⟩
  | ok d =>
    obtain ⟨o, w, hload⟩ : ∃ o w, loadChain files packageRoot (maxExtendsDepth + 1) path
        ⟨[], accesses⟩ = (.ok o, w) := ⟨_, _, loadChain_of_ok List.not_mem_nil hread⟩
    rw [hload] at hsame ⊢
    refine ⟨?_, by simp [IsDocument, hread, Except.toOption]⟩
    refine Unfolds.of_injOn hkey (fun p hp q hq => hp.tail hq) ?_ .refl (fun p hp => nomatch hp)
    generalize unfolded files packageRoot id (maxExtendsDepth + 1) [] path = tree at htree hsame
    cases htree with
    | recurs h => cases h
    | failed _ h => exact nomatch hread.symm.trans h
    | @read _ _ d' inherited hnot h hbases =>
      obtain rfl := Except.ok.inj (hread.symm.trans h)
      obtain rfl : o = _ := hsame
      exact .read inherited hnot h hbases

/-! ## Two projects -/

/-- The first document extends two others that extend a third, which extends the first. -/
def diamond : Tree :=
  .ofFiles [("tsconfig.json".toList, "\x7b\"extends\":[\"./a\",\"./b\"]\x7d".toList),
    ("a.json".toList, "\x7b\"extends\":\"./c\"\x7d".toList),
    ("b.json".toList, "\x7b\"extends\":\"./c\"\x7d".toList),
    ("c.json".toList, "\x7b\"extends\":\"./tsconfig\"\x7d".toList)]

/-- A document that is reached twice, and again from itself. -/
theorem unfolds_loadChain_diamond :
    let loaded := (loadChain diamond.store "node_modules".toList (maxExtendsDepth + 1)
      "tsconfig.json".toList ⟨[], []⟩).1
    Unfolds diamond.store "node_modules".toList Path.toProject [] "tsconfig.json".toList
        loaded.toOption ∧
      (loaded.toOption = none ↔ ¬ IsDocument diamond.store "tsconfig.json".toList) := by
  let paths := ["tsconfig.json".toList, "a.json".toList, "b.json".toList, "c.json".toList]
  have hclosed : IsClosed diamond.store "node_modules".toList paths := by decide +kernel
  have hpath : "tsconfig.json".toList ∈ paths := List.mem_cons_self
  have hkey : ∀ p ∈ paths, Path.toProject p = p := by decide +kernel
  refine unfolds_loadChain (fun row hrow => ?_) (fun p hp q hq heq => ?_) []
  · exact (hclosed.length_lt hpath hrow).le.trans (by decide)
  · rwa [hkey p (hclosed.mem_of_leadsTo hpath hp), hkey q (hclosed.mem_of_leadsTo hpath hq)] at heq

/-- Two documents in packages that extend each other, and each another one beside it. The first is
reached by two spellings of its path. -/
def respelled : Tree :=
  .ofFiles [("tsconfig.json".toList, "\x7b\"extends\":\"p/./base.json\"\x7d".toList),
    ("node_modules/p/base.json".toList,
      "\x7b\"extends\":[\"./own\",\"../q/base\"]\x7d".toList),
    ("node_modules/p/own.json".toList,
      "\x7b\"compilerOptions\":\x7b\"strict\":true\x7d\x7d".toList),
    ("node_modules/q/base.json".toList,
      "\x7b\"extends\":[\"./own\",\"../p/base\"]\x7d".toList),
    ("node_modules/q/own.json".toList,
      "\x7b\"compilerOptions\":\x7b\"strict\":false\x7d\x7d".toList)]

/-- The path of a document that is named like one of a package is taken as it is spelled. A document
with two spellings is loaded below itself, and what it extends takes precedence over what the tree
says comes first. -/
theorem not_unfolds_loadChain_respelled :
    (∀ row, IsExtendsRow respelled.store "node_modules".toList ("tsconfig.json".toList :: row) →
      row.length ≤ maxExtendsDepth) ∧
    ¬ Unfolds respelled.store "node_modules".toList Path.toProject [] "tsconfig.json".toList
      (loadChain respelled.store "node_modules".toList (maxExtendsDepth + 1)
        "tsconfig.json".toList ⟨[], []⟩).1.toOption := by
  let paths := ["tsconfig.json".toList, "node_modules/p/./base.json".toList,
    "node_modules/p/base.json".toList, "node_modules/p/own.json".toList,
    "node_modules/q/base.json".toList, "node_modules/q/own.json".toList]
  have hclosed : IsClosed respelled.store "node_modules".toList paths := by decide +kernel
  have hdepth : ∀ row, IsExtendsRow respelled.store "node_modules".toList
      ("tsconfig.json".toList :: row) → row.length ≤ maxExtendsDepth :=
    fun row hrow => (hclosed.length_lt List.mem_cons_self hrow).le.trans (by decide)
  refine ⟨hdepth, fun hloaded => ?_⟩
  have hroom : HasRoom respelled.store "node_modules".toList (maxExtendsDepth + 1) []
      "tsconfig.json".toList := fun row hrow _ => Nat.succ_le_succ (hdepth row hrow)
  have htree : Unfolds respelled.store "node_modules".toList Path.toProject []
      "tsconfig.json".toList _ := hroom.unfolds
  have hstrict := congrArg (Option.map RawOptions.strict) (hloaded.unique htree)
  revert hstrict
  decide +kernel

end Config

end SourceClosure
