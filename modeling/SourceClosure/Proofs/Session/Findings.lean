import SourceClosure.Proofs.Session.Packages
import SourceClosure.Proofs.Store.Names

/-!
# What a crawl comes upon

Some paths that a crawl comes upon are declaration files that it takes up, some are passed over, and
some fail. Which of these becomes of which path depends on the project only, and this module lists it
without a session (`Project.findings`), in the order of the crawl. The list says all that a crawl
reports (`reports_crawl`), and the files that are taken up are those that the crawl brings in
(`files_findings`).
-/

namespace SourceClosure

/-! ## Findings -/

/-- What becomes of a path that a crawl comes upon. -/
inductive Fate where
  /-- It is a declaration file with this content, which is taken up. -/
  | taken (content : Text)
  | passed (reason : Skip)
  /-- Listing or reading it fails. -/
  | failed (fault : StoreFault)
  deriving DecidableEq, Repr

namespace Fate

def content? : Fate → Option Text
  | taken content => some content
  | _ => none

def reason? : Fate → Option Skip
  | passed reason => some reason
  | _ => none

def fault? : Fate → Option StoreFault
  | failed fault => some fault
  | _ => none

theorem content?_eq_some_iff {fate : Fate} {content : Text} :
    fate.content? = some content ↔ fate = .taken content := by
  cases fate <;> simp [content?]

theorem reason?_eq_some_iff {fate : Fate} {reason : Skip} :
    fate.reason? = some reason ↔ fate = .passed reason := by
  cases fate <;> simp [reason?]

theorem fault?_eq_some_iff {fate : Fate} {fault : StoreFault} :
    fate.fault? = some fault ↔ fate = .failed fault := by
  cases fate <;> simp [fault?]

end Fate

/-- A path that a crawl comes upon, and what becomes of it. -/
abbrev Finding := Text × Fate

namespace Finding

variable {α : Type} (view : Fate → Option α)

/-- The findings of one kind, with what is known of them. -/
def pick (found : List Finding) : List (Text × α) :=
  found.filterMap (fun x => (view x.2).map (Prod.mk x.1))

@[simp] theorem pick_nil : pick view [] = [] := rfl

theorem pick_cons (x : Finding) (found : List Finding) :
    pick view (x :: found) = ((view x.2).map (Prod.mk x.1)).toList ++ pick view found := by
  unfold pick
  rw [List.filterMap_cons]
  cases view x.2 <;> rfl

theorem pick_append (found found' : List Finding) :
    pick view (found ++ found') = pick view found ++ pick view found' :=
  List.filterMap_append

theorem pick_flatMap {β : Type} (f : β → List Finding) (l : List β) :
    pick view (l.flatMap f) = l.flatMap (fun x => pick view (f x)) :=
  List.filterMap_flatMap

variable {view}

theorem mem_pick_iff {found : List Finding} {path : Text} {a : α} :
    (path, a) ∈ pick view found ↔ ∃ fate, (path, fate) ∈ found ∧ view fate = some a := by
  unfold pick
  rw [List.mem_filterMap]
  constructor
  · rintro ⟨⟨path', fate⟩, hmem, hview⟩
    obtain ⟨a', hfate, heq⟩ := Option.map_eq_some_iff.1 hview
    cases heq
    exact ⟨fate, hmem, hfate⟩
  · rintro ⟨fate, hmem, hview⟩
    exact ⟨_, hmem, by rw [hview]; rfl⟩

theorem mem_content_iff {found : List Finding} {path content : Text} :
    (path, content) ∈ pick Fate.content? found ↔ (path, Fate.taken content) ∈ found := by
  simp [mem_pick_iff, Fate.content?_eq_some_iff]

theorem mem_reason_iff {found : List Finding} {path : Text} {reason : Skip} :
    (path, reason) ∈ pick Fate.reason? found ↔ (path, Fate.passed reason) ∈ found := by
  simp [mem_pick_iff, Fate.reason?_eq_some_iff]

theorem mem_fault_iff {found : List Finding} {path : Text} {fault : StoreFault} :
    (path, fault) ∈ pick Fate.fault? found ↔ (path, Fate.failed fault) ∈ found := by
  simp [mem_pick_iff, Fate.fault?_eq_some_iff]

/-- Paths that are found once are picked at most once. -/
theorem pick_sublist (found : List Finding) :
    ((pick view found).map Prod.fst).Sublist (found.map Prod.fst) := by
  induction found with
  | nil => exact List.Sublist.slnil
  | cons x found ih =>
    rw [pick_cons, List.map_append]
    cases view x.2 with
    | none => exact ih.cons x.1
    | some a => exact ih.cons_cons x.1

end Finding

namespace Project

/-- What becomes of a declaration file. -/
def fateOf (p : Project) (path : Text) : Fate :=
  match p.files.read path with
  | .error fault => .failed fault
  | .ok content =>
    if p.settings.maxDeclarationSize ≤ Text.byteLength content then
      .passed (.tooLarge (Text.byteLength content))
    else .taken content

/-- What is found at an entry of a directory. `deeper` says what is found in a directory below,
unless that is too deep. -/
def findingsAt (p : Project) (deeper : Option (Text → List Finding)) (directory : Text)
    (e : Entry) : List Finding :=
  let path := Path.join directory e.name
  if e.name.head? = some '.' then [(path, .passed .hidden)]
  else if e.isFolder then
    if p.settings.isDenied e.name then [(path, .passed .denylisted)]
    else match deeper with
      | none => [(path, .passed .depthExceeded)]
      | some deeper => deeper path
  else if Path.isDeclaration e.name then [(path, p.fateOf path)]
  else []

/-- What is found in a directory. -/
def findingsIn (p : Project) (deeper : Option (Text → List Finding)) (directory : Text) :
    List Finding :=
  match p.files.list directory with
  | .error fault => [(directory, .failed fault)]
  | .ok entries => entries.flatMap (p.findingsAt deeper directory)

/-- What is found in a directory and at most `depth` levels below it. -/
def findings (p : Project) : (depth : Nat) → Text → List Finding
  | 0 => p.findingsIn none
  | depth + 1 => p.findingsIn (some (p.findings depth))

/-! ## Files that are brought in -/

/-- The files among the findings, as they are fed. -/
def filesOf (found : List Finding) : List CorpusFile :=
  (Finding.pick Fate.content? found).map (fun x => ⟨Path.toProject x.1, x.2⟩)

variable {p : Project}

theorem filesOf_fateOf (path : Text) :
    filesOf [(path, p.fateOf path)] = (p.declarationAt? path).toList := by
  unfold fateOf declarationAt?
  cases p.files.read path with
  | error _ => rfl
  | ok content =>
    dsimp only
    split <;> rfl

theorem filesOf_findingsAt (deeper : Option (Text → List Finding)) (directory : Text)
    (e : Entry) :
    filesOf (p.findingsAt deeper directory e) =
      p.foundAt (fun path => filesOf (deeper.elim [] (fun f => f path))) directory e := by
  unfold findingsAt foundAt
  dsimp only
  split
  · rfl
  · split
    · split
      · rfl
      · cases deeper <;> rfl
    · split
      · exact filesOf_fateOf _
      · rfl

theorem filesOf_findingsIn (deeper : Option (Text → List Finding)) (directory : Text) :
    filesOf (p.findingsIn deeper directory) =
      p.foundIn (fun path => filesOf (deeper.elim [] (fun f => f path))) directory := by
  unfold findingsIn foundIn
  cases p.files.list directory with
  | error _ => rfl
  | ok entries =>
    dsimp only
    rw [filesOf, Finding.pick_flatMap, List.map_flatMap]
    exact List.flatMap_congr (fun e _ => filesOf_findingsAt deeper directory e)

/-- A crawl brings in the files among its findings. -/
theorem filesOf_findings (depth : Nat) (directory : Text) :
    filesOf (p.findings depth directory) = p.found depth directory := by
  induction depth generalizing directory with
  | zero => exact filesOf_findingsIn none directory
  | succ depth ih =>
    have hdeeper : (fun path => filesOf (p.findings depth path)) = p.found depth := funext ih
    rw [findings, filesOf_findingsIn, found, ← hdeeper]
    rfl

end Project

/-! ## What a crawl reports -/

namespace Session

variable {p : Project}

/-- From the first crawl to the second, the report has grown by what it says of some findings, and its
count of files by as many as the corpus. -/
structure Reports (found : List Finding) (c d : Crawl) : Prop where
  skipped : d.1.skipped = c.1.skipped ++ Finding.pick Fate.reason? found
  failed : d.1.failed = c.1.failed + (Finding.pick Fate.fault? found).length
  counted : d.1.registered + c.2.corpus.length = c.1.registered + d.2.corpus.length

namespace Reports

/-- A step that only puts a question to the store. -/
theorem nil {c d : Crawl} (hreport : d.1 = c.1) (hcorpus : d.2.corpus = c.2.corpus) :
    Reports [] c d :=
  ⟨by simp [hreport], by simp [hreport], by rw [hreport, hcorpus]⟩

theorem trans {found found' : List Finding} {c d e : Crawl} (h : Reports found c d)
    (h' : Reports found' d e) : Reports (found ++ found') c e where
  skipped := by rw [h'.skipped, h.skipped, Finding.pick_append, List.append_assoc]
  failed := by
    rw [h'.failed, h.failed, Finding.pick_append, List.length_append, Nat.add_assoc]
  counted := by
    have hfirst := h.counted
    have hsecond := h'.counted
    omega

end Reports

theorem length_register (path content : Text) (s : Session) :
    (s.register p path content).2.corpus.length =
      s.corpus.length + (s.register p path content).1.toNat := by
  cases h : s.has (Path.toProject path) with
  | true => rw [register_of_has h, Bool.toNat_false, Nat.add_zero]
  | false =>
    rw [register_of_not_has h]
    exact List.length_append

theorem count_registered (r : CrawlReport) (fed : Bool) :
    (r.count fed).registered = r.registered + fed.toNat := by
  cases fed <;> rfl

theorem reports_crawlFile (path : Text) (c : Crawl) :
    Reports [(path, p.fateOf path)] c (crawlFile p path c) := by
  unfold crawlFile Project.fateOf
  dsimp only
  cases p.files.read path with
  | error _ => exact ⟨(List.append_nil _).symm, rfl, rfl⟩
  | ok content =>
    dsimp only
    split
    · exact ⟨rfl, rfl, rfl⟩
    · refine ⟨?_, ?_, ?_⟩
      · unfold CrawlReport.count
        split <;> exact (List.append_nil _).symm
      · unfold CrawlReport.count
        split <;> rfl
      · have hlength := length_register (p := p) path content (c.2.note (.read path))
        have hcount := count_registered c.1 ((c.2.note (.read path)).register p path content).1
        have hnote : (c.2.note (.read path)).corpus.length = c.2.corpus.length := rfl
        dsimp only
        omega

section Enter

variable {enter : Option (Text → Crawl → Crawl)} {deeper : Option (Text → List Finding)}
  (henter : Option.Rel (fun f g => ∀ path c, Reports (g path) c (f path c)) enter deeper)

include henter

theorem reports_crawlEntry (directory : Text) (c : Crawl) (e : Entry) :
    Reports (p.findingsAt deeper directory e) c (crawlEntry p enter directory c e) := by
  unfold crawlEntry Project.findingsAt
  dsimp only
  split
  · exact ⟨rfl, rfl, rfl⟩
  · split
    · split
      · exact ⟨rfl, rfl, rfl⟩
      · cases henter with
        | none => exact ⟨rfl, rfl, rfl⟩
        | some hbelow => exact hbelow _ c
    · split
      · exact reports_crawlFile _ c
      · exact .nil rfl rfl

theorem reports_crawlEntries (directory : Text) (entries : List Entry) (c : Crawl) :
    Reports (entries.flatMap (p.findingsAt deeper directory)) c
      (entries.foldl (crawlEntry p enter directory) c) := by
  induction entries generalizing c with
  | nil => exact .nil rfl rfl
  | cons e entries ih => exact (reports_crawlEntry henter directory c e).trans (ih _)

theorem reports_crawlFolder (directory : Text) (c : Crawl) :
    Reports (p.findingsIn deeper directory) c (crawlFolder p enter directory c) := by
  have hnote : Reports [] c (c.1, c.2.note (.list directory)) := .nil rfl rfl
  unfold crawlFolder Project.findingsIn
  dsimp only
  cases p.files.list directory with
  | error _ => exact ⟨(List.append_nil _).symm, rfl, rfl⟩
  | ok entries => exact hnote.trans (reports_crawlEntries henter directory entries _)

end Enter

theorem reports_crawlWithin (depth : Nat) (path : Text) (c : Crawl) :
    Reports (p.findings depth path) c (crawlWithin p depth path c) := by
  induction depth generalizing path c with
  | zero => exact reports_crawlFolder .none path c
  | succ depth ih => exact reports_crawlFolder (.some ih) path c

/-- What a crawl reports follows from its findings and from how much the corpus has grown. -/
theorem reports_crawl (path : Text) (depth : Nat) (s : Session) :
    Reports (p.findings depth (Path.toProject path)) ({}, s) (crawl p path depth s) :=
  reports_crawlWithin depth _ ({}, s)

end Session

end SourceClosure
