import SourceClosure.Proofs.Store.Tree

/-!
# Where a path leads on disk

A disk refuses a path that is absolute, or that climbs: read from left to right, it has somewhere
more `..` than names. Every other path leads by names from the project's directory, and these names
are the segments of its project path, by which a project in memory keeps its files
(`Disk.resolve_confined`). The disk splits at either separator and gives up at a `..` too many, while
a project path has its backslashes turned into slashes first and discards such a `..`; on the paths
that are taken the two come to the same.
-/

namespace SourceClosure

/-! ## Climbing -/

namespace Path

/-- Whether a segment leads a step down. -/
def leadsDown (segment : Text) : Bool :=
  segment != [] && segment != here && segment != up

/-- Read from left to right, the segments have somewhere more `..` than names. -/
def Climbs (parts : List Text) : Prop :=
  ∃ start, start <+: parts ∧ start.countP leadsDown < start.count up

/-- The path is absolute, or it climbs. -/
def Strays (path : Text) : Prop :=
  isRooted path = true ∨ Climbs (Text.splitWhere isSeparator path)

/-- A prefix of a list with a first element is empty, or starts with that element. -/
theorem exists_prefix_cons_iff {x : Text} {parts : List Text} {p : List Text → Prop} :
    (∃ start, start <+: x :: parts ∧ p start) ↔
      p [] ∨ ∃ start, start <+: parts ∧ p (x :: start) := by
  constructor
  · rintro ⟨start, hprefix, hp⟩
    cases start with
    | nil => exact .inl hp
    | cons y start =>
      obtain ⟨rfl, htail⟩ := List.cons_prefix_cons.1 hprefix
      exact .inr ⟨start, htail, hp⟩
  · rintro (hp | ⟨start, hprefix, hp⟩)
    · exact ⟨[], List.nil_prefix, hp⟩
    · exact ⟨x :: start, List.cons_prefix_cons.2 ⟨rfl, hprefix⟩, hp⟩

/-- Splitting at either separator is splitting at slashes once backslashes have become slashes. -/
theorem splitWhere_isSeparator (path : Text) :
    Text.splitWhere isSeparator path = Text.split '/' (slashes path) := by
  induction path with
  | nil => rfl
  | cons c path ih =>
    rw [slashes_cons]
    unfold Text.split Text.splitWhere at ih ⊢
    rw [List.foldr_cons, List.foldr_cons, ih]
    by_cases hback : c = '\\'
    · subst hback
      rfl
    · have hsep : isSeparator c = (c == '/') := by simp [isSeparator, hback]
      rw [hsep, if_neg hback]

end Path

namespace Disk

theorem pushConfined_of_skipped {x : Text} (h : x = [] ∨ x = Path.here) (stack : List Text) :
    pushConfined stack x = some stack := by
  simp [pushConfined, h]

theorem pushConfined_up_cons (x : Text) (stack : List Text) :
    pushConfined (x :: stack) Path.up = some stack := rfl

theorem pushConfined_of_leadsDown {x : Text} (h : Path.leadsDown x = true) (stack : List Text) :
    pushConfined stack x = some (x :: stack) := by
  simp only [Path.leadsDown, Bool.and_eq_true, bne_iff_ne] at h
  simp [pushConfined, h]

/-- A stack is used up where the segments climb by more than its height. -/
theorem foldlM_pushConfined_eq_none_iff {parts stack : List Text} :
    parts.foldlM pushConfined stack = none ↔ ∃ start, start <+: parts ∧
      stack.length + start.countP Path.leadsDown < start.count Path.up := by
  -- A step down or up changes the stack's height as it changes one of the counts.
  induction parts generalizing stack with
  | nil => simp
  | cons x parts ih =>
    rw [Path.exists_prefix_cons_iff, List.foldlM_cons]
    simp only [List.countP_nil, List.count_nil, Nat.not_lt_zero, false_or]
    by_cases hskip : x = [] ∨ x = Path.here
    · have hdown : Path.leadsDown x = false := by rcases hskip with rfl | rfl <;> rfl
      have hup : x ≠ Path.up := by rintro rfl; rcases hskip with h | h <;> cases h
      rw [pushConfined_of_skipped hskip, Option.bind_eq_bind, Option.bind_some, ih]
      simp only [List.countP_cons, hdown, List.count_cons, beq_iff_eq, if_neg hup,
        Bool.false_eq_true, if_false, Nat.add_zero]
    by_cases hup : x = Path.up
    · subst hup
      have hdown : Path.leadsDown Path.up = false := rfl
      simp only [List.countP_cons, hdown, List.count_cons, beq_self_eq_true, if_true,
        Bool.false_eq_true, if_false]
      cases stack with
      | nil => exact iff_of_true rfl ⟨[], List.nil_prefix, Nat.zero_lt_one⟩
      | cons y stack =>
        rw [pushConfined_up_cons, Option.bind_eq_bind, Option.bind_some, ih]
        refine exists_congr (fun start => and_congr_right (fun _ => ?_))
        rw [List.length_cons]
        omega
    · have hdown : Path.leadsDown x = true := by
        rw [not_or] at hskip
        simp [Path.leadsDown, hskip, hup]
      rw [pushConfined_of_leadsDown hdown, Option.bind_eq_bind, Option.bind_some, ih]
      refine exists_congr (fun start => and_congr_right (fun _ => ?_))
      simp only [List.countP_cons, hdown, List.count_cons, beq_iff_eq, if_neg hup, if_true,
        List.length_cons]
      omega

/-- A segment that is taken is worked off as in a project path. -/
theorem eq_pushSegment_of_pushConfined {stack next : List Text} {x : Text}
    (h : pushConfined stack x = some next) : next = Path.pushSegment stack x := by
  unfold pushConfined at h
  unfold Path.pushSegment
  split at h
  · next hskip => rw [if_pos hskip, Option.some.inj h]
  · next hskip =>
    rw [if_neg hskip]
    split at h
    · next hup =>
      rw [if_pos hup]
      cases stack with
      | nil => cases h
      | cons y stack => exact (Option.some.inj h).symm
    · next hup => rw [if_neg hup, Option.some.inj h]

theorem eq_foldl_of_foldlM_pushConfined {parts stack last : List Text}
    (h : parts.foldlM pushConfined stack = some last) :
    last = parts.foldl Path.pushSegment stack := by
  induction parts generalizing stack with
  | nil => exact (Option.some.inj h).symm
  | cons x parts ih =>
    rw [List.foldlM_cons, Option.bind_eq_bind] at h
    obtain ⟨next, hnext, hlast⟩ := Option.bind_eq_some_iff.1 h
    rw [List.foldl_cons, ← eq_pushSegment_of_pushConfined hnext, ih hlast]

theorem confine?_eq_none_iff {path : Text} : confine? path = none ↔ Path.Strays path := by
  unfold confine? Path.Strays
  split
  · next hrooted => exact iff_of_true rfl (.inl hrooted)
  · next hrooted =>
    rw [Option.map_eq_none_iff, foldlM_pushConfined_eq_none_iff]
    simp [hrooted, Path.Climbs]

/-- A path that does not stray is taken for the segments of its project path. -/
theorem confine?_of_not_strays {path : Text} (h : ¬ Path.Strays path) :
    confine? path = some (Path.segments path) := by
  obtain ⟨names, hnames⟩ := Option.ne_none_iff_exists'.1 (mt confine?_eq_none_iff.1 h)
  rw [hnames]
  unfold confine? at hnames
  split at hnames
  · cases hnames
  · obtain ⟨stack, hstack, rfl⟩ := Option.map_eq_some_iff.1 hnames
    rw [eq_foldl_of_foldlM_pushConfined hstack, Path.splitWhere_isSeparator, Path.segments]

end Disk

/-- A fault of a walk along a path, as a store reports it. -/
def WalkFault.toStore (path : Text) : WalkFault → StoreFault
  | missing => .notFound path
  | broken cause => .failed path cause

/-- Names lead below every directory that they start from, one step at a time. -/
theorem Path.foldl_pushSegment {names : List Text} (h : ∀ x ∈ names, IsName x)
    (stack : List Text) : names.foldl pushSegment stack = names.reverse ++ stack := by
  induction names generalizing stack with
  | nil => rfl
  | cons x names ih =>
    obtain ⟨hx, hnames⟩ := List.forall_mem_cons.1 h
    have hpush : pushSegment stack x = x :: stack := by
      rw [pushSegment, if_neg (by simp [hx.ne_nil, hx.ne_here]), if_neg hx.ne_up]
    rw [List.foldl_cons, hpush, ih hnames]
    simp

/-- A path is refused if it strays. Otherwise it is looked up by names from the project's directory:
they have no separator in them and lead nowhere but down, and they are the segments of the project
path, under which a tree keeps its files. -/
theorem Disk.resolve_confined (d : Disk) (path : Text) :
    (d.resolve path = .error (.outsideRoot path) ↔ Path.Strays path) ∧
      (¬ Path.Strays path → ∃ names, confine? path = some names ∧
        d.resolve path = (d.locate d.home names).mapError (WalkFault.toStore path) ∧
        names = Path.segments (Path.toProject path) ∧
        Path.ofSegments names = Path.toProject path ∧
        (∀ x ∈ names, x ≠ [] ∧ x ≠ Path.here ∧ x ≠ Path.up ∧ ∀ c ∈ x, Path.isSeparator c = false) ∧
        ∀ start, start <+: names → ∀ root,
          start.foldl Path.pushSegment root = start.reverse ++ root) := by
  have hname : ∀ x ∈ Path.segments path, Path.IsName x := fun _ => Path.isName_of_mem_segments
  have hresolve (h : ¬ Path.Strays path) : d.resolve path =
      (d.locate d.home (Path.segments path)).mapError (WalkFault.toStore path) := by
    unfold resolve find
    rw [confine?_of_not_strays h]
    dsimp only
    cases d.locate d.home (Path.segments path) with
    | ok n => rfl
    | error fault => cases fault <;> rfl
  refine ⟨⟨fun hrefused => ?_, fun h => ?_⟩, fun h => ?_⟩
  · by_contra h
    rw [hresolve h] at hrefused
    cases hlocate : d.locate d.home (Path.segments path) with
    | ok n => rw [hlocate] at hrefused; cases hrefused
    | error fault => rw [hlocate] at hrefused; cases fault <;> cases hrefused
  · unfold resolve
    rw [confine?_eq_none_iff.2 h]
  · refine ⟨Path.segments path, confine?_of_not_strays h, hresolve h,
      (Path.segments_toProject path).symm, (Path.toProject_eq path).symm, fun x hx => ?_,
      fun start hstart root => ?_⟩
    · have hx := hname x hx
      refine ⟨hx.ne_nil, hx.ne_here, hx.ne_up, fun c hc => ?_⟩
      simp only [Path.isSeparator, Bool.or_eq_false_iff, beq_eq_false_iff_ne]
      exact ⟨fun h => hx.slash (h ▸ hc), fun h => hx.backslash (h ▸ hc)⟩
    · exact Path.foldl_pushSegment (fun x hx => hname x (hstart.subset hx)) root

/-- The second step up would leave the project, whatever follows it. -/
example : Disk.confine? "a/../..\\b".toList = none := by decide

end SourceClosure
