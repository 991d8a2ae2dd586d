import Mathlib.Data.List.Nodup
import SourceClosure.Proofs.Session.Findings

/-!
# Exactly the files in bounds

A crawl takes up the declaration files to which listed names lead from its directory, as long as no
name on the way is hidden or denied and there are not too many of them. This module says so without
following the crawl: which directories are entered (`Project.Enters`), and what becomes of the entries
listed there (`Project.Finds`). Neither the order in which the crawl goes about it nor what it met
before plays a part, and every path is found once (`nodup_findings`).

A path that fails takes away what lies at it or below it and nothing else
(`finds_taken_iff_unfailing`).
-/

namespace SourceClosure

namespace Project

/-! ## What is found where -/

/-- The directory lists the entry. -/
def Lists (p : Project) (path : Text) (e : Entry) : Prop :=
  ∃ entries, p.files.list path = .ok entries ∧ e ∈ entries

/-- A crawl enters the directory to which the names lead: each of them is listed as a directory where
those before it lead, none is hidden or denied, and there are at most `depth` of them. -/
structure Enters (p : Project) (depth : Nat) (directory : Text) (names : List Text) : Prop where
  depth : names.length ≤ depth
  listed {before : List Text} {x : Text} {after : List Text} : names = before ++ x :: after →
    p.Lists (Path.down directory before) ⟨x, true⟩
  shown {x : Text} : x ∈ names → x.head? ≠ some '.'
  allowed {x : Text} : x ∈ names → p.settings.isDenied x = false

/-- What becomes of an entry at a path, unless it is a directory that is entered. So many levels of
directories may be entered from where it is listed. -/
inductive Meets (p : Project) (room : Nat) (path : Text) : Entry → Fate → Prop where
  | hidden {e : Entry} : e.name.head? = some '.' → Meets p room path e (.passed .hidden)
  | denied {name : Text} : name.head? ≠ some '.' → p.settings.isDenied name = true →
      Meets p room path ⟨name, true⟩ (.passed .denylisted)
  | tooDeep {name : Text} : name.head? ≠ some '.' → p.settings.isDenied name = false → room = 0 →
      Meets p room path ⟨name, true⟩ (.passed .depthExceeded)
  | tooLarge {name content : Text} : name.head? ≠ some '.' → Path.isDeclaration name = true →
      p.files.read path = .ok content →
      p.settings.maxDeclarationSize ≤ Text.byteLength content →
      Meets p room path ⟨name, false⟩ (.passed (.tooLarge (Text.byteLength content)))
  | unread {name : Text} {fault : StoreFault} : name.head? ≠ some '.' →
      Path.isDeclaration name = true → p.files.read path = .error fault →
      Meets p room path ⟨name, false⟩ (.failed fault)
  | taken {name content : Text} : name.head? ≠ some '.' → Path.isDeclaration name = true →
      p.files.read path = .ok content →
      Text.byteLength content < p.settings.maxDeclarationSize →
      Meets p room path ⟨name, false⟩ (.taken content)

/-- What becomes of the paths that a crawl of a directory comes upon. -/
inductive Finds (p : Project) (depth : Nat) (directory : Text) : Text → Fate → Prop where
  /-- A directory that is entered cannot be listed. -/
  | unlisted {names : List Text} {fault : StoreFault} : p.Enters depth directory names →
      p.files.list (Path.down directory names) = .error fault →
      Finds p depth directory (Path.down directory names) (.failed fault)
  /-- A directory that is entered lists an entry. -/
  | entry {names : List Text} {e : Entry} {fate : Fate} : p.Enters depth directory names →
      p.Lists (Path.down directory names) e →
      p.Meets (depth - names.length) (Path.down directory (names ++ [e.name])) e fate →
      Finds p depth directory (Path.down directory (names ++ [e.name])) fate

variable {p : Project} {depth room : Nat} {directory path x : Text} {names : List Text}
  {e : Entry} {fate : Fate}

/-! ## One level -/

theorem Enters.nil (p : Project) (depth : Nat) (directory : Text) : p.Enters depth directory [] where
  depth := Nat.zero_le depth
  listed h := by simp at h
  shown h := by cases h
  allowed h := by cases h

section Distinct

variable (hp : p.files.ListsDistinctly)

include hp

theorem isName_of_lists_folder (h : p.Lists path ⟨x, true⟩) : Path.IsName x := by
  obtain ⟨entries, hlist, he⟩ := h
  rcases hp.name hlist _ he with hname | ⟨-, hfile⟩
  · exact hname
  · cases hfile

theorem isName_of_lists_declaration (h : p.Lists path ⟨x, false⟩)
    (hdeclaration : Path.isDeclaration x = true) : Path.IsName x := by
  obtain ⟨entries, hlist, he⟩ := h
  rcases hp.name hlist _ he with hname | ⟨rfl, -⟩
  · exact hname
  · exact absurd hdeclaration (by decide)

/-- What becomes of something has a name. -/
theorem Meets.isName {path' : Text} (h : p.Meets room path e fate) (he : p.Lists path' e) :
    Path.IsName e.name := by
  cases h with
  | hidden hdot =>
    obtain ⟨entries, hlist, hmem⟩ := he
    rcases hp.name hlist _ hmem with hname | ⟨hnil, -⟩
    · exact hname
    · rw [hnil] at hdot
      cases hdot
  | denied => exact isName_of_lists_folder hp he
  | tooDeep => exact isName_of_lists_folder hp he
  | tooLarge _ hdeclaration => exact isName_of_lists_declaration hp he hdeclaration
  | unread _ hdeclaration => exact isName_of_lists_declaration hp he hdeclaration
  | taken _ hdeclaration => exact isName_of_lists_declaration hp he hdeclaration

theorem Enters.isName (h : p.Enters depth directory names) : ∀ x ∈ names, Path.IsName x := by
  intro x hx
  obtain ⟨before, after, hnames⟩ := List.append_of_mem hx
  exact isName_of_lists_folder hp (h.listed hnames)

theorem Enters.isName_append (h : p.Enters depth directory names) (hx : Path.IsName x) :
    ∀ y ∈ names ++ [x], Path.IsName y := by
  intro y hy
  rcases List.mem_append.1 hy with hy | hy
  · exact h.isName hp y hy
  · rwa [List.mem_singleton.1 hy]

variable (hdirectory : Path.toProject directory = directory)

include hdirectory

/-- To enter a directory further below is to enter one that is listed, and to go on from there. -/
theorem enters_cons_iff : p.Enters depth directory (x :: names) ↔
    p.Lists directory ⟨x, true⟩ ∧ x.head? ≠ some '.' ∧ p.settings.isDenied x = false ∧
      ∃ d, depth = d + 1 ∧ p.Enters d (Path.join directory x) names := by
  constructor
  · intro h
    have hlisted := h.listed (List.nil_append (x :: names)).symm
    rw [Path.down_nil hdirectory] at hlisted
    have hx := isName_of_lists_folder hp hlisted
    have hdepth := h.depth
    rw [List.length_cons] at hdepth
    obtain ⟨d, rfl⟩ := Nat.exists_eq_add_one_of_ne_zero (Nat.ne_zero_of_lt hdepth)
    refine ⟨hlisted, h.shown List.mem_cons_self, h.allowed List.mem_cons_self, d, rfl, ?_⟩
    refine ⟨Nat.le_of_succ_le_succ hdepth, fun {before y after} hnames => ?_,
      fun hy => h.shown (List.mem_cons_of_mem x hy),
      fun hy => h.allowed (List.mem_cons_of_mem x hy)⟩
    rw [Path.down_join hx]
    exact h.listed (by rw [hnames, List.cons_append])
  · rintro ⟨hlisted, hshown, hallowed, d, rfl, h⟩
    have hx := isName_of_lists_folder hp hlisted
    refine ⟨Nat.succ_le_succ h.depth, fun {before y after} hnames => ?_, fun hy => ?_,
      fun hy => ?_⟩
    · cases before with
      | nil =>
        rw [List.nil_append, List.cons.injEq] at hnames
        rwa [← hnames.1, Path.down_nil hdirectory]
      | cons z before =>
        rw [List.cons_append, List.cons.injEq] at hnames
        rw [← hnames.1, ← Path.down_join hx]
        exact h.listed hnames.2
    · rcases List.mem_cons.1 hy with rfl | hy
      · exact hshown
      · exact h.shown hy
    · rcases List.mem_cons.1 hy with rfl | hy
      · exact hallowed
      · exact h.allowed hy

/-- A crawl finds what becomes of the entries of its directory, and what it finds in the directories
among them. -/
theorem finds_iff : p.Finds depth directory path fate ↔
    (∃ fault, p.files.list directory = .error fault ∧ path = directory ∧ fate = .failed fault) ∨
      ∃ e, p.Lists directory e ∧
        (path = Path.join directory e.name ∧ p.Meets depth path e fate ∨
          e.isFolder = true ∧ e.name.head? ≠ some '.' ∧ p.settings.isDenied e.name = false ∧
            ∃ d, depth = d + 1 ∧ p.Finds d (Path.join directory e.name) path fate) := by
  constructor
  · -- Either no name leads on from the directory, or the first is that of a listed directory.
    intro h
    cases h with
    | @unlisted names fault henters hlist =>
      cases names with
      | nil =>
        rw [Path.down_nil hdirectory] at hlist ⊢
        exact .inl ⟨fault, hlist, rfl, rfl⟩
      | cons x names =>
        obtain ⟨hlisted, hshown, hallowed, d, rfl, hbelow⟩ :=
          (enters_cons_iff hp hdirectory).1 henters
        have hx := isName_of_lists_folder hp hlisted
        refine .inr ⟨_, hlisted, .inr ⟨rfl, hshown, hallowed, d, rfl, ?_⟩⟩
        rw [← Path.down_join hx] at hlist ⊢
        exact .unlisted hbelow hlist
    | @entry names e _ henters hentry hmeets =>
      cases names with
      | nil =>
        rw [Path.down_nil hdirectory] at hentry
        refine .inr ⟨e, hentry, .inl ⟨?_, hmeets⟩⟩
        rw [List.nil_append, Path.join_eq_down hdirectory (hmeets.isName hp hentry)]
      | cons x names =>
        obtain ⟨hlisted, hshown, hallowed, d, rfl, hbelow⟩ :=
          (enters_cons_iff hp hdirectory).1 henters
        have hx := isName_of_lists_folder hp hlisted
        refine .inr ⟨_, hlisted, .inr ⟨rfl, hshown, hallowed, d, rfl, ?_⟩⟩
        rw [List.cons_append, ← Path.down_join hx] at hmeets ⊢
        rw [← Path.down_join hx] at hentry
        rw [List.length_cons, Nat.add_sub_add_right] at hmeets
        exact .entry hbelow hentry hmeets
  · rintro (⟨fault, hlist, rfl, rfl⟩ | ⟨e, hentry, ⟨rfl, hmeets⟩ | ⟨hfolder, hbelow⟩⟩)
    · have h : p.Finds depth path (Path.down path []) (.failed fault) :=
        .unlisted (.nil p depth path) (by rwa [Path.down_nil hdirectory])
      rwa [Path.down_nil hdirectory] at h
    · have hname := hmeets.isName hp hentry
      rw [Path.join_eq_down hdirectory hname] at hmeets ⊢
      exact .entry (.nil p depth directory) (by rwa [Path.down_nil hdirectory]) hmeets
    · obtain ⟨name, isFolder⟩ := e
      obtain ⟨hshown, hallowed, d, rfl, hfinds⟩ := hbelow
      subst hfolder
      have hname := isName_of_lists_folder hp hentry
      have henters {names : List Text} (h : p.Enters d (Path.join directory name) names) :
          p.Enters (d + 1) directory (name :: names) :=
        (enters_cons_iff hp hdirectory).2 ⟨hentry, hshown, hallowed, d, rfl, h⟩
      cases hfinds with
      | @unlisted names fault h hlist =>
        rw [Path.down_join hname] at hlist ⊢
        exact .unlisted (henters h) hlist
      | @entry names e _ h hbelow hmeets =>
        rw [Path.down_join hname] at hbelow hmeets ⊢
        refine .entry (henters h) hbelow ?_
        rwa [List.length_cons, Nat.add_sub_add_right]

end Distinct

/-! ## The crawl's list of findings -/

theorem mem_findingsIn_iff {deeper : Option (Text → List Finding)} :
    (path, fate) ∈ p.findingsIn deeper directory ↔
      (∃ fault, p.files.list directory = .error fault ∧ path = directory ∧ fate = .failed fault) ∨
        ∃ e, p.Lists directory e ∧ (path, fate) ∈ p.findingsAt deeper directory e := by
  unfold findingsIn Lists
  cases p.files.list directory with
  | error fault => simp [eq_comm]
  | ok entries => simp

theorem meets_file_iff {name : Text} (hshown : name.head? ≠ some '.')
    (hdeclaration : Path.isDeclaration name = true) :
    p.Meets room path ⟨name, false⟩ fate ↔ fate = p.fateOf path := by
  unfold fateOf
  constructor
  · intro h
    cases h with
    | hidden hdot => exact absurd hdot hshown
    | tooLarge _ _ hread hsize => rw [hread]; exact (if_pos hsize).symm
    | unread _ _ hread => rw [hread]
    | taken _ _ hread hsize => rw [hread]; exact (if_neg (Nat.not_le_of_lt hsize)).symm
  · rintro rfl
    cases hread : p.files.read path with
    | error fault => exact .unread hshown hdeclaration hread
    | ok content =>
      dsimp only
      split
      · next hsize => exact .tooLarge hshown hdeclaration hread hsize
      · next hsize => exact .taken hshown hdeclaration hread (Nat.lt_of_not_le hsize)

/-- What is found in a directory below one that is searched so many levels deep. -/
def findingsBelow (p : Project) : (depth : Nat) → Option (Text → List Finding)
  | 0 => none
  | depth + 1 => some (p.findings depth)

theorem findings_eq (depth : Nat) (directory : Text) :
    p.findings depth directory = p.findingsIn (p.findingsBelow depth) directory := by
  cases depth <;> rfl

/-- What is found at an entry: what becomes of it, or what is found in the directory that it is. -/
theorem mem_findingsAt_iff :
    (path, fate) ∈ p.findingsAt (p.findingsBelow depth) directory e ↔
      path = Path.join directory e.name ∧ p.Meets depth path e fate ∨
        e.isFolder = true ∧ e.name.head? ≠ some '.' ∧ p.settings.isDenied e.name = false ∧
          ∃ d, depth = d + 1 ∧ (path, fate) ∈ p.findings d (Path.join directory e.name) := by
  obtain ⟨name, isFolder⟩ := e
  constructor
  · intro h
    unfold findingsAt at h
    dsimp only at h
    split at h
    · next hdot =>
      cases List.mem_singleton.1 h
      exact .inl ⟨rfl, .hidden hdot⟩
    · next hshown =>
      cases isFolder with
      | true =>
        rw [if_pos rfl] at h
        split at h
        · next hdenied =>
          cases List.mem_singleton.1 h
          exact .inl ⟨rfl, .denied hshown hdenied⟩
        · next hallowed =>
          rw [Bool.not_eq_true] at hallowed
          cases depth with
          | zero =>
            cases List.mem_singleton.1 h
            exact .inl ⟨rfl, .tooDeep hshown hallowed rfl⟩
          | succ d => exact .inr ⟨rfl, hshown, hallowed, d, rfl, h⟩
      | false =>
        rw [if_neg Bool.false_ne_true] at h
        split at h
        · next hdeclaration =>
          cases List.mem_singleton.1 h
          exact .inl ⟨rfl, (meets_file_iff hshown hdeclaration).2 rfl⟩
        · cases h
  · rintro (⟨rfl, h⟩ | ⟨rfl, hshown, hallowed, d, rfl, hmem⟩)
    · have hfile (hshown : name.head? ≠ some '.') (hdeclaration : Path.isDeclaration name = true)
          (hkind : isFolder = false) : (Path.join directory name, fate) ∈
            p.findingsAt (p.findingsBelow depth) directory ⟨name, isFolder⟩ := by
        subst hkind
        rw [(meets_file_iff hshown hdeclaration).1 h]
        simp [findingsAt, hshown, hdeclaration]
      cases h with
      | hidden hdot => simp [findingsAt, hdot]
      | denied hshown hdenied => simp [findingsAt, hshown, hdenied]
      | tooDeep hshown hallowed hroom =>
        subst hroom
        simp [findingsAt, findingsBelow, hshown, hallowed]
      | tooLarge hshown hdeclaration => exact hfile hshown hdeclaration rfl
      | unread hshown hdeclaration => exact hfile hshown hdeclaration rfl
      | taken hshown hdeclaration => exact hfile hshown hdeclaration rfl
    · simpa [findingsAt, findingsBelow, hshown, hallowed] using hmem

section Distinct

variable (hp : p.files.ListsDistinctly)

include hp

/-- A listed directory makes a project path with its name. -/
theorem toProject_join_folder (hdirectory : Path.toProject directory = directory)
    (he : p.Lists directory e) (hfolder : e.isFolder = true) :
    Path.toProject (Path.join directory e.name) = Path.join directory e.name := by
  obtain ⟨name, isFolder⟩ := e
  subst hfolder
  exact Path.toProject_join_name hdirectory (isName_of_lists_folder hp he)

/-- The crawl's list holds what there is to find. -/
theorem mem_findings_iff (hdirectory : Path.toProject directory = directory) :
    (path, fate) ∈ p.findings depth directory ↔ p.Finds depth directory path fate := by
  induction depth using Nat.strong_induction_on generalizing directory with
  | _ depth ih =>
    rw [findings_eq, mem_findingsIn_iff, finds_iff hp hdirectory]
    refine or_congr_right (exists_congr fun e => and_congr_right fun he => ?_)
    rw [mem_findingsAt_iff]
    refine or_congr_right (and_congr_right fun hfolder => and_congr_right fun _ =>
      and_congr_right fun _ => exists_congr fun d => and_congr_right fun hd => ?_)
    exact ih d (by omega) (toProject_join_folder hp hdirectory he hfolder)

/-- What is found has a project path at or below the directory. -/
theorem Finds.exists_names (h : p.Finds depth directory path fate) :
    ∃ names, (∀ x ∈ names, Path.IsName x) ∧ path = Path.down directory names := by
  cases h with
  | unlisted henters => exact ⟨_, henters.isName hp, rfl⟩
  | entry henters hentry hmeets =>
    exact ⟨_, henters.isName_append hp (hmeets.isName hp hentry), rfl⟩

theorem Finds.toProject (h : p.Finds depth directory path fate) : Path.toProject path = path := by
  obtain ⟨names, hnames, rfl⟩ := h.exists_names hp
  exact Path.toProject_down hnames

theorem Finds.prefix_segments (h : p.Finds depth directory path fate) :
    Path.segments directory <+: Path.segments path := by
  obtain ⟨names, hnames, rfl⟩ := h.exists_names hp
  rw [Path.segments_down hnames]
  exact List.prefix_append _ _

/-- What is found at an entry has the entry's name behind the segments of the directory. -/
theorem prefix_segments_of_mem_findingsAt (hdirectory : Path.toProject directory = directory)
    (he : p.Lists directory e) {x : Finding}
    (h : x ∈ p.findingsAt (p.findingsBelow depth) directory e) :
    Path.segments directory ++ [e.name] <+: Path.segments x.1 := by
  obtain ⟨path, fate⟩ := x
  rcases mem_findingsAt_iff.1 h with ⟨rfl, hmeets⟩ | ⟨hfolder, -, -, d, rfl, hmem⟩
  · have hjoin := Path.segments_join_name (hmeets.isName hp he) directory
    exact hjoin ▸ List.prefix_refl _
  · have hbelow := toProject_join_folder hp hdirectory he hfolder
    obtain ⟨name, isFolder⟩ := e
    subst hfolder
    rw [← Path.segments_join_name (isName_of_lists_folder hp he)]
    exact ((mem_findings_iff hp hbelow).1 hmem).prefix_segments hp

/-- Every path is found once. -/
theorem nodup_findings (hdirectory : Path.toProject directory = directory) :
    ((p.findings depth directory).map Prod.fst).Nodup := by
  induction depth using Nat.strong_induction_on generalizing directory with
  | _ depth ih =>
    rw [findings_eq, findingsIn]
    cases hlist : p.files.list directory with
    | error _ => simp
    | ok entries =>
      dsimp only
      rw [List.map_flatMap, List.nodup_flatMap]
      constructor
      · intro e he
        unfold findingsAt
        dsimp only
        split
        · simp
        · split
          · next hfolder =>
            split
            · simp
            · cases depth with
              | zero => simp [findingsBelow]
              | succ d =>
                exact ih d d.lt_succ_self
                  (toProject_join_folder hp hdirectory ⟨entries, hlist, he⟩ hfolder)
          · split <;> simp
      · -- Paths that go on by different names are different.
        refine (hp.distinct hlist).imp_of_mem fun {e e'} he he' hne => ?_
        refine List.disjoint_left.2 fun path hpath hpath' => ?_
        obtain ⟨x, hx, rfl⟩ := List.mem_map.1 hpath
        obtain ⟨x', hx', heq⟩ := List.mem_map.1 hpath'
        have h := prefix_segments_of_mem_findingsAt hp hdirectory ⟨entries, hlist, he⟩ hx
        have h' := prefix_segments_of_mem_findingsAt hp hdirectory ⟨entries, hlist, he'⟩ hx'
        rw [heq] at h'
        have hsame := (List.prefix_of_prefix_length_le h h' (by simp)).eq_of_length (by simp)
        exact hne (List.singleton_inj.1 (List.append_cancel_left hsame))

/-! ## Files that are taken up -/

theorem mem_found_iff (hdirectory : Path.toProject directory = directory) {f : CorpusFile} :
    f ∈ p.found depth directory ↔ p.Finds depth directory f.path (.taken f.content) := by
  rw [← filesOf_findings, filesOf, List.mem_map]
  constructor
  · rintro ⟨⟨path, content⟩, hmem, rfl⟩
    have hfinds := (mem_findings_iff hp hdirectory).1 (Finding.mem_content_iff.1 hmem)
    rwa [hfinds.toProject hp]
  · intro h
    refine ⟨(f.path, f.content), ?_, by rw [h.toProject hp]⟩
    exact Finding.mem_content_iff.2 ((mem_findings_iff hp hdirectory).2 h)

theorem nodup_found (hdirectory : Path.toProject directory = directory) :
    ((p.found depth directory).map CorpusFile.path).Nodup := by
  have hpaths : (p.found depth directory).map CorpusFile.path =
      (Finding.pick Fate.content? (p.findings depth directory)).map Prod.fst := by
    rw [← filesOf_findings, filesOf, List.map_map]
    refine List.map_congr_left fun x hx => ?_
    exact ((mem_findings_iff hp hdirectory).1 (Finding.mem_content_iff.1 hx)).toProject hp
  rw [hpaths]
  exact (nodup_findings hp hdirectory).sublist (Finding.pick_sublist _)

end Distinct

/-- The files that are taken up, spelled out. -/
theorem finds_taken_iff {content : Text} : p.Finds depth directory path (.taken content) ↔
    ∃ names name, p.Enters depth directory names ∧
      p.Lists (Path.down directory names) ⟨name, false⟩ ∧
      name.head? ≠ some '.' ∧ Path.isDeclaration name = true ∧
      path = Path.down directory (names ++ [name]) ∧ p.files.read path = .ok content ∧
      Text.byteLength content < p.settings.maxDeclarationSize := by
  constructor
  · intro h
    cases h with
    | entry henters hentry hmeets =>
      cases hmeets with
      | taken hshown hdeclaration hread hsize =>
        exact ⟨_, _, henters, hentry, hshown, hdeclaration, rfl, hread, hsize⟩
  · rintro ⟨names, name, henters, hentry, hshown, hdeclaration, rfl, hread, hsize⟩
    exact .entry henters hentry (.taken hshown hdeclaration hread hsize)

end Project

/-! ## Failures -/

/-- The path is the directory, the other path, or on the way from the one to the other. -/
def Path.OnTheWay (directory path x : Text) : Prop :=
  segments directory <+: segments x ∧ segments x <+: segments path

instance (directory path x : Text) : Decidable (Path.OnTheWay directory path x) :=
  inferInstanceAs (Decidable (_ ∧ _))

/-- What is on the way to where names lead is where the first of them lead. -/
theorem Path.onTheWay_down_iff {directory x : Text} {names : List Text}
    (hx : Path.toProject x = x) (hnames : ∀ y ∈ names, Path.IsName y) :
    Path.OnTheWay directory (Path.down directory names) x ↔
      ∃ front, front <+: names ∧ x = Path.down directory front := by
  rw [OnTheWay, segments_down hnames]
  constructor
  · rintro ⟨⟨front, hfront⟩, hbelow⟩
    rw [← hfront, List.prefix_append_right_inj] at hbelow
    exact ⟨front, hbelow, by rw [down, hfront, ← toProject_eq, hx]⟩
  · rintro ⟨front, hfront, rfl⟩
    rw [segments_down (fun y hy => hnames y (hfront.subset hy)), List.prefix_append_right_inj]
    exact ⟨List.prefix_append _ _, hfront⟩

namespace Tree

variable {t : Tree} (ht : t.IsBuilt) (specifiersIn : Text → List Text) (settings : Settings)

theorem lists_iff_unfailing {path : Text} {e : Entry} :
    (t.project specifiersIn settings).Lists path e ↔ Path.toProject path ∉ t.failing ∧
      (t.unfailing.project specifiersIn settings).Lists path e := by
  unfold Project.Lists
  constructor
  · rintro ⟨entries, hlist, he⟩
    obtain ⟨hsound, hlist⟩ := list_eq_ok_iff_unfailing.1 hlist
    exact ⟨hsound, entries, hlist, he⟩
  · rintro ⟨hsound, entries, hlist, he⟩
    exact ⟨entries, list_eq_ok_iff_unfailing.2 ⟨hsound, hlist⟩, he⟩

include ht

/-- Nothing fails on the way to where names lead if none of the places fails to which the first of
them lead. -/
theorem forall_failing_iff {directory : Text} {names : List Text}
    (hnames : ∀ y ∈ names, Path.IsName y) :
    (∀ x ∈ t.failing, ¬ Path.OnTheWay directory (Path.down directory names) x) ↔
      ∀ front, front <+: names → Path.toProject (Path.down directory front) ∉ t.failing := by
  constructor
  · intro hway front hfront hmem
    rw [Path.toProject_down (fun y hy => hnames y (hfront.subset hy))] at hmem
    refine hway _ hmem ((Path.onTheWay_down_iff (ht.toProject_failing _ hmem) hnames).2 ?_)
    exact ⟨front, hfront, rfl⟩
  · intro hway x hx honway
    have hnormal := ht.toProject_failing x hx
    obtain ⟨front, hfront, rfl⟩ := (Path.onTheWay_down_iff hnormal hnames).1 honway
    exact hway front hfront (by rwa [hnormal])

/-- A file is taken up if it would be without failures, and nothing fails on the way to it. -/
theorem finds_taken_iff_unfailing {depth : Nat} {directory path content : Text} :
    (t.project specifiersIn settings).Finds depth directory path (.taken content) ↔
      (t.unfailing.project specifiersIn settings).Finds depth directory path (.taken content) ∧
        ∀ x ∈ t.failing, ¬ Path.OnTheWay directory path x := by
  have hread {path : Text} : t.read path = .ok content ↔
      Path.toProject path ∉ t.failing ∧ t.unfailing.read path = .ok content :=
    ht.inOrder.read_eq_ok_iff_unfailing
  rw [Project.finds_taken_iff, Project.finds_taken_iff]
  constructor
  · rintro ⟨names, name, henters, hentry, hshown, hdeclaration, rfl, hcontent, hsize⟩
    have hp := ht.inOrder.listsDistinctly
    have hnames := henters.isName_append hp
      (Project.isName_of_lists_declaration hp hentry hdeclaration)
    obtain ⟨hfile, hcontent'⟩ := hread.1 hcontent
    obtain ⟨hfolder, hentry'⟩ := (lists_iff_unfailing specifiersIn settings).1 hentry
    have hlisted {before after : List Text} {x : Text} (h : names = before ++ x :: after) :=
      (lists_iff_unfailing specifiersIn settings).1 (henters.listed h)
    refine ⟨⟨names, name, ⟨henters.depth, fun h => (hlisted h).2, henters.shown, henters.allowed⟩,
      hentry', hshown, hdeclaration, rfl, hcontent', hsize⟩,
      (forall_failing_iff ht hnames).2 fun front hfront => ?_⟩
    rcases List.prefix_concat_iff.1 hfront with rfl | ⟨_ | ⟨x, after⟩, hrest⟩
    · exact hfile
    · rw [List.append_nil] at hrest
      rwa [hrest]
    · exact (hlisted hrest.symm).1
  · rintro ⟨⟨names, name, henters, hentry, hshown, hdeclaration, rfl, hcontent, hsize⟩, hway⟩
    have hp := ht.inOrder.unfailing.listsDistinctly
    have hnames := henters.isName_append hp
      (Project.isName_of_lists_declaration hp hentry hdeclaration)
    have hsound := (forall_failing_iff ht hnames).1 hway
    have hlisted {before after : List Text} {x : Text} (h : names = before ++ x :: after) :
        (t.project specifiersIn settings).Lists (Path.down directory before) ⟨x, true⟩ := by
      refine (lists_iff_unfailing specifiersIn settings).2 ⟨hsound before ?_, henters.listed h⟩
      rw [h, List.append_assoc]
      exact List.prefix_append _ _
    exact ⟨names, name, ⟨henters.depth, hlisted, henters.shown, henters.allowed⟩,
      (lists_iff_unfailing specifiersIn settings).2
        ⟨hsound names (List.prefix_append _ _), hentry⟩,
      hshown, hdeclaration, rfl, hread.2 ⟨hsound _ (List.prefix_refl _), hcontent⟩, hsize⟩

end Tree

namespace Session

theorem fresh_sublist (corpus files : List CorpusFile) : (fresh corpus files).Sublist files := by
  induction files generalizing corpus with
  | nil => exact .slnil
  | cons f files ih =>
    rw [fresh_cons]
    split
    · exact (ih corpus).cons f
    · exact (ih _).cons_cons f

/-! ## Main result -/

/-- A crawl adds to the corpus exactly the files that it finds and that were not there, and of the
paths that it finds besides, its report has those that are passed over, each once and with the reason,
and the number of those that fail. What fails costs the crawl only files at or below it. -/
theorem crawl_takes_files_in_bounds (t : Tree) (ht : t.IsBuilt) (specifiersIn : Text → List Text)
    (settings : Settings) (path : Text) (depth : Nat) (s : Session) :
    let p := t.project specifiersIn settings
    let directory := Path.toProject path
    let crawled := crawl p path depth s
    (∃ added, crawled.2.corpus = s.corpus ++ added ∧ (added.map CorpusFile.path).Nodup ∧
      ∀ f, f ∈ added ↔
        s.has f.path = false ∧ p.Finds depth directory f.path (.taken f.content)) ∧
    ((crawled.1.skipped.map Prod.fst).Nodup ∧
      ∀ x reason, (x, reason) ∈ crawled.1.skipped ↔
        p.Finds depth directory x (.passed reason)) ∧
    (∃ faults : List (Text × StoreFault), crawled.1.failed = faults.length ∧
      (faults.map Prod.fst).Nodup ∧
      ∀ x fault, (x, fault) ∈ faults ↔ p.Finds depth directory x (.failed fault)) ∧
    ∀ x content, p.Finds depth directory x (.taken content) ↔
      (t.unfailing.project specifiersIn settings).Finds depth directory x (.taken content) ∧
        ∀ y ∈ t.failing, ¬ Path.OnTheWay directory x y := by
  intro p directory crawled
  have hp : p.files.ListsDistinctly := ht.inOrder.listsDistinctly
  have hdirectory : Path.toProject directory = directory := Path.toProject_toProject path
  have hfound {x : Text} {fate : Fate} :
      (x, fate) ∈ p.findings depth directory ↔ p.Finds depth directory x fate :=
    Project.mem_findings_iff hp hdirectory
  have hnodup : ((p.findings depth directory).map Prod.fst).Nodup :=
    Project.nodup_findings hp hdirectory
  have hnodup' : ((p.found depth directory).map CorpusFile.path).Nodup :=
    Project.nodup_found hp hdirectory
  have hdistinguish : PathsDistinguish (p.found depth directory) :=
    fun _ hf _ hg => List.inj_on_of_nodup_map hnodup' hf hg
  have hreports := reports_crawl (p := p) path depth s
  have hskipped : crawled.1.skipped = Finding.pick Fate.reason? (p.findings depth directory) :=
    hreports.skipped
  have hfailed : crawled.1.failed =
      (Finding.pick Fate.fault? (p.findings depth directory)).length := by
    rw [hreports.failed, Nat.zero_add]
  refine ⟨⟨_, (brings_crawl path depth s).corpus, ?_, fun f => ?_⟩, ⟨?_, fun x reason => ?_⟩,
    ⟨_, hfailed, ?_, fun x fault => ?_⟩, fun x content => ?_⟩
  · exact hnodup'.sublist ((fresh_sublist _ _).map _)
  · rw [mem_fresh_iff hdistinguish, Project.mem_found_iff hp hdirectory, and_comm]
    simp [has]
  · rw [hskipped]
    exact hnodup.sublist (Finding.pick_sublist _)
  · rw [hskipped, Finding.mem_reason_iff, hfound]
  · exact hnodup.sublist (Finding.pick_sublist _)
  · rw [Finding.mem_fault_iff, hfound]
  · exact Tree.finds_taken_iff_unfailing ht specifiersIn settings

/-- A package with something of everything: a file at the bound on sizes, a directory at the bound on
depth, hidden and denied names, a file that fails and a directory that does. -/
def mixed : Tree :=
  ((Tree.ofFiles [("pkg/.b.d.ts".toList, []), ("pkg/a.d.ts".toList, []),
    ("pkg/big.d.ts".toList, "0123456789".toList), ("pkg/broken.d.ts".toList, []),
    ("pkg/docs/c.d.ts".toList, []), ("pkg/lib/d.d.ts".toList, []),
    ("pkg/lib/deep/e.d.ts".toList, []), ("pkg/torn/f.d.ts".toList, [])]).failOn
      "pkg/broken.d.ts".toList).failOn "pkg/torn".toList

theorem isBuilt_mixed : mixed.IsBuilt :=
  .failOn _ (.failOn _ (Tree.isBuilt_ofFiles _))

set_option maxRecDepth 20000 in
theorem crawl_takes_files_in_bounds_mixed :
    let p := mixed.project (fun _ => []) { maxDeclarationSize := 10 }
    let crawled := crawl p "pkg".toList 1 new
    mixed.IsBuilt ∧
      crawled.2.corpus.map CorpusFile.path = ["pkg/a.d.ts".toList, "pkg/lib/d.d.ts".toList] ∧
      crawled.1.skipped = [("pkg/.b.d.ts".toList, .hidden), ("pkg/big.d.ts".toList, .tooLarge 10),
        ("pkg/docs".toList, .denylisted), ("pkg/lib/deep".toList, .depthExceeded)] ∧
      crawled.1.failed = 2 ∧
      p.Finds 1 "pkg".toList "pkg/lib/d.d.ts".toList (.taken []) ∧
      p.Finds 1 "pkg".toList "pkg/lib/deep".toList (.passed .depthExceeded) ∧
      ¬ p.Finds 1 "pkg".toList "pkg/torn/f.d.ts".toList (.taken []) := by
  intro p crawled
  obtain ⟨⟨added, hcorpus, -, hadded⟩, ⟨-, hskipped⟩, -, hfailing⟩ :=
    crawl_takes_files_in_bounds mixed isBuilt_mixed (fun _ => []) { maxDeclarationSize := 10 }
      "pkg".toList 1 new
  have hlib : ⟨"pkg/lib/d.d.ts".toList, []⟩ ∈ added := by
    have hmem : ⟨"pkg/lib/d.d.ts".toList, []⟩ ∈ crawled.2.corpus := by decide
    rwa [hcorpus] at hmem
  refine ⟨isBuilt_mixed, by decide, by decide, by decide, ((hadded _).1 hlib).2,
    (hskipped _ _).1 (by decide), fun h => ?_⟩
  exact ((hfailing _ _).1 h).2 "pkg/torn".toList (by decide) (by decide)

end Session

end SourceClosure
