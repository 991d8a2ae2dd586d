import Mathlib.Data.List.Forall2
import SourceClosure.Alias.Resolver
import SourceClosure.Proofs.Path.Below
import SourceClosure.Proofs.Text.Cutting

/-!
# What an alias table means

A pattern stands for the texts that come of it when something takes the place of its asterisk
(`AliasPattern.Generates`). This module says, without cutting any text, what a table makes of a
specifier: the first entry whose pattern generates the specifier decides, what took the asterisk's
place is put into its targets, and each of these leads from the base path to a stem (`LeadsTo`). That
is what the resolver does (`candidates?_as_declared`), also where the ends of a pattern overlap in the
specifier, where the captured text holds asterisks or separators, and where `..` leads above the base
path.
-/

namespace SourceClosure

/-! ## Patterns -/

namespace AliasPattern

/-- The specifier comes of the pattern when the captured text takes the place of its asterisk. Of a
pattern without asterisks only itself comes, and of one with several nothing does. -/
inductive Generates : (pattern captured specifier : Text) → Prop where
  | exact {text : Text} : wildcard ∉ text → Generates text [] text
  | around {start finish : Text} (captured : Text) : wildcard ∉ start → wildcard ∉ finish →
      Generates (start ++ wildcard :: finish) captured (start ++ captured ++ finish)

theorem capture?_around {start finish specifier captured : Text} :
    (around start finish).capture? specifier = some captured ↔
      specifier = start ++ captured ++ finish := by
  simp only [capture?, Option.bind_eq_some_iff, Text.after?_eq_some_iff, Text.before?_eq_some_iff]
  constructor
  · rintro ⟨rest, rfl, rfl⟩
    rw [List.append_assoc]
  · rintro rfl
    exact ⟨captured ++ finish, List.append_assoc _ _ _, rfl⟩

/-- A pattern captures what its asterisk stands for in the specifier that comes of it. -/
theorem capture?_ofText?_iff {pattern specifier captured : Text} :
    (ofText? pattern).bind (capture? · specifier) = some captured ↔
      Generates pattern captured specifier := by
  unfold ofText?
  cases hsplit : Text.splitOnce wildcard pattern with
  | none =>
    have hnone := Text.not_mem_of_splitOnce hsplit
    simp only [Option.bind_some, capture?]
    constructor
    · intro h
      split at h
      · next heq =>
        cases h
        subst heq
        exact .exact hnone
      · cases h
    · intro h
      cases h with
      | exact => exact if_pos rfl
      | around => simp at hnone
  | some parts =>
    obtain ⟨start, finish⟩ := parts
    obtain ⟨rfl, hstart⟩ := Text.splitOnce_spec hsplit
    by_cases hfinish : wildcard ∈ finish
    · simp only [List.contains_iff_mem, hfinish, if_true, Option.bind_none, reduceCtorEq, false_iff]
      generalize hpattern : start ++ wildcard :: finish = pattern
      intro h
      cases h with
      | exact hnone => exact hnone (by rw [← hpattern]; simp)
      | around _ hstart' hfinish' =>
        -- The asterisk that comes first is the only one.
        have hsame := Text.splitOnce_append hstart finish
        rw [hpattern, Text.splitOnce_append hstart'] at hsame
        cases hsame
        exact hfinish' hfinish
    · simp only [List.contains_iff_mem, hfinish, if_false, Option.bind_some, capture?_around]
      constructor
      · rintro rfl
        exact .around captured hstart hfinish
      · generalize hpattern : start ++ wildcard :: finish = pattern
        intro h
        cases h with
        | exact hnone => exact absurd (by rw [← hpattern]; simp) hnone
        | around _ hstart' _ =>
          have hsame := Text.splitOnce_append hstart finish
          rw [hpattern, Text.splitOnce_append hstart'] at hsame
          cases hsame
          rfl

/-- At most one text can take the place of the asterisk. -/
theorem Generates.unique {pattern captured captured' specifier : Text}
    (h : Generates pattern captured specifier) (h' : Generates pattern captured' specifier) :
    captured' = captured := by
  rw [← capture?_ofText?_iff] at h h'
  exact Option.some_inj.1 (h'.symm.trans h)

/-- The patterns that anything comes of have at most one asterisk. -/
theorem ofText?_isSome_iff {pattern : Text} :
    (ofText? pattern).isSome = true ↔ pattern.count wildcard ≤ 1 := by
  unfold ofText?
  cases hsplit : Text.splitOnce wildcard pattern with
  | none =>
    have hcount := List.count_eq_zero.2 (Text.not_mem_of_splitOnce hsplit)
    simp [hcount]
  | some parts =>
    obtain ⟨start, finish⟩ := parts
    obtain ⟨rfl, hstart⟩ := Text.splitOnce_spec hsplit
    rw [List.count_append, List.count_eq_zero.2 hstart, List.count_cons_self]
    by_cases hfinish : wildcard ∈ finish
    · have hcount := List.count_pos_iff.2 hfinish
      simp [hfinish, hcount.ne']
    · simp [hfinish, List.count_eq_zero.2 hfinish]

end AliasPattern

/-! ## Targets -/

/-- The target becomes the filled text when the captured text takes the place of its first
asterisk. -/
inductive Fills (captured : Text) : (target filled : Text) → Prop where
  | plain {target : Text} : wildcard ∉ target → Fills captured target target
  | first {start : Text} (finish : Text) : wildcard ∉ start →
      Fills captured (start ++ wildcard :: finish) (start ++ captured ++ finish)

theorem fillTarget_eq_iff {captured target filled : Text} :
    fillTarget captured target = filled ↔ Fills captured target filled := by
  unfold fillTarget
  cases hsplit : Text.splitOnce wildcard target with
  | none =>
    have hnone := Text.not_mem_of_splitOnce hsplit
    constructor
    · rintro rfl
      exact .plain hnone
    · intro h
      cases h with
      | plain => rfl
      | first => simp at hnone
  | some parts =>
    obtain ⟨start, finish⟩ := parts
    obtain ⟨rfl, hstart⟩ := Text.splitOnce_spec hsplit
    dsimp only
    constructor
    · rintro rfl
      exact .first finish hstart
    · generalize htarget : start ++ wildcard :: finish = target
      intro h
      cases h with
      | plain hnone => exact absurd (by rw [← htarget]; simp) hnone
      | first _ hstart' =>
        have hsame := Text.splitOnce_append hstart finish
        rw [htarget, Text.splitOnce_append hstart'] at hsame
        cases hsame
        rfl

/-- The target leads to the stem: it is filled in, appended to the base path unless it is absolute,
and taken for a project path. -/
def LeadsTo (base captured target stem : Text) : Prop :=
  ∃ filled, Fills captured target filled ∧
    stem = Path.toProject (if Path.isRooted filled then filled else base ++ '/' :: filled)

namespace Path

theorem segments_here_slash (p : Text) : segments ('.' :: '/' :: p) = segments p := by
  have hhere : walk [] here = [] := by decide
  rw [← List.singleton_append, segments_eq_walk, walk_append_slash, ← here, hhere, segments_eq_walk]

/-- A path leads to the same place without its leading `./`. -/
theorem segments_stripHere (p : Text) : segments (stripHere p) = segments p := by
  fun_induction stripHere p with
  | case1 rest ih => rw [ih, segments_here_slash]
  | case2 => decide
  | case3 => rfl

/-- A path that is combined with a base leads where it leads behind the base's slash, unless it is
absolute. -/
theorem segments_combine_eq (base relative : Text) :
    segments (combine base relative) =
      segments (if isRooted relative then relative else base ++ '/' :: relative) := by
  cases hrooted : isRooted relative with
  | true => simp [combine, hrooted]
  | false =>
    rw [segments_eq_walk, walk_combine hrooted, ← walk_append_slash, ← segments_eq_walk]
    rfl

end Path

namespace AliasResolver

theorem substitute_eq_iff {r : AliasResolver} {captured target stem : Text} :
    r.substitute captured target = stem ↔ LeadsTo r.base captured target stem := by
  have hstem : r.substitute captured target =
      Path.toProject (if Path.isRooted (fillTarget captured target) then fillTarget captured target
        else r.base ++ '/' :: fillTarget captured target) := by
    refine Path.toProject_eq_toProject ?_
    rw [Path.segments_stripHere, Path.segments_combine_eq]
  rw [hstem]
  constructor
  · rintro rfl
    exact ⟨_, fillTarget_eq_iff.1 rfl, rfl⟩
  · rintro ⟨filled, hfills, rfl⟩
    rw [fillTarget_eq_iff.2 hfills]

theorem map_substitute_eq_iff {r : AliasResolver} {captured : Text} {targets stems : List Text} :
    targets.map (r.substitute captured) = stems ↔
      List.Forall₂ (LeadsTo r.base captured) targets stems := by
  rw [← List.forall₂_eq_eq_eq, List.forall₂_map_left_iff]
  simp only [substitute_eq_iff]

/-! ## Tables -/

/-- What the text of an entry's pattern captures in a specifier. -/
def captured? (specifier : Text) (e : AliasEntry) : Option Text :=
  (AliasPattern.ofText? e.pattern).bind (·.capture? specifier)

theorem captured?_eq_some_iff {specifier captured : Text} {e : AliasEntry} :
    captured? specifier e = some captured ↔
      AliasPattern.Generates e.pattern captured specifier :=
  AliasPattern.capture?_ofText?_iff

theorem captured?_eq_none_iff {specifier : Text} {e : AliasEntry} :
    captured? specifier e = none ↔ ∀ c, ¬ AliasPattern.Generates e.pattern c specifier := by
  simp only [Option.eq_none_iff_forall_ne_some, ne_eq, captured?_eq_some_iff]

theorem candidates?_ofTable (table : AliasTable) (base specifier : Text) :
    (ofTable table base).candidates? specifier =
      table.entries.findSome? (fun e => (captured? specifier e).map
        (fun captured => e.targets.map ((ofTable table base).substitute captured))) := by
  unfold candidates?
  generalize (ofTable table base).substitute = substitute
  rw [ofTable, ← List.head?_filterMap, List.filterMap_filterMap, List.head?_filterMap]
  congr 1
  funext e
  unfold captured?
  cases AliasPattern.ofText? e.pattern <;> rfl

theorem covers_ofTable (table : AliasTable) (base specifier : Text) :
    (ofTable table base).covers specifier =
      table.entries.any (fun e => (captured? specifier e).isSome) := by
  rw [covers, ofTable, List.any_filterMap]
  congr 1
  funext e
  unfold captured?
  cases AliasPattern.ofText? e.pattern <;> rfl

/-- Entries whose patterns have several asterisks make no difference. -/
theorem ofTable_filter (table : AliasTable) (base : Text) :
    ofTable ⟨table.entries.filter (fun e => e.pattern.count wildcard ≤ 1)⟩ base =
      ofTable table base := by
  unfold ofTable
  dsimp only
  rw [List.filterMap_filter]
  congr 2
  funext e
  split
  · rfl
  · next hcount =>
    rw [decide_eq_true_eq, ← AliasPattern.ofText?_isSome_iff, Option.not_isSome_iff_eq_none] at hcount
    rw [hcount, Option.map_none]

/-! ## Main result -/

/-- A resolver covers a specifier if it has candidates for it, which it has if the pattern of some
entry generates the specifier. The first such entry decides: exactly one text takes the place of its
asterisk, and the candidates are what its targets lead to with that text, all of them project paths.
Patterns with several asterisks might as well be left out, and entries that come later count only if
those before them give no candidates. -/
theorem candidates?_as_declared (table : AliasTable) (base specifier : Text) :
    let r := ofTable table base
    (r.covers specifier = true ↔ (r.candidates? specifier).isSome = true) ∧
      ((r.candidates? specifier).isSome = true ↔
        ∃ e ∈ table.entries, ∃ c, AliasPattern.Generates e.pattern c specifier) ∧
      (∀ stems, r.candidates? specifier = some stems ↔
        ∃ before e after captured, table.entries = before ++ e :: after ∧
          (∀ e' ∈ before, ∀ c, ¬ AliasPattern.Generates e'.pattern c specifier) ∧
          (∀ c, AliasPattern.Generates e.pattern c specifier ↔ c = captured) ∧
          List.Forall₂ (LeadsTo base captured) e.targets stems) ∧
      (∀ stems ∈ r.candidates? specifier, ∀ stem ∈ stems, Path.toProject stem = stem) ∧
      ofTable ⟨table.entries.filter (fun e => e.pattern.count wildcard ≤ 1)⟩ base = r ∧
      ∀ later, (ofTable ⟨table.entries ++ later⟩ base).candidates? specifier =
        (r.candidates? specifier).or ((ofTable ⟨later⟩ base).candidates? specifier) := by
  intro r
  have hcandidates := candidates?_ofTable table base specifier
  refine ⟨?_, ?_, fun stems => ?_, fun stems hstems stem hstem => ?_, ?_, fun later => ?_⟩
  · rw [covers_ofTable, hcandidates, List.findSome?_isSome_iff]
    simp
  · rw [hcandidates, List.findSome?_isSome_iff]
    simp only [Option.isSome_map, Option.isSome_iff_exists, captured?_eq_some_iff]
  · rw [hcandidates, List.findSome?_eq_some_iff]
    simp only [Option.map_eq_some_iff, Option.map_eq_none_iff, captured?_eq_some_iff,
      captured?_eq_none_iff]
    constructor
    · rintro ⟨before, e, after, hentries, ⟨captured, hcaptured, hstems⟩, hbefore⟩
      refine ⟨before, e, after, captured, hentries, hbefore, fun c => ⟨hcaptured.unique, ?_⟩,
        map_substitute_eq_iff.1 hstems⟩
      rintro rfl
      exact hcaptured
    · rintro ⟨before, e, after, captured, hentries, hbefore, hcaptured, hstems⟩
      exact ⟨before, e, after, hentries, ⟨captured, (hcaptured captured).2 rfl,
        map_substitute_eq_iff.2 hstems⟩, hbefore⟩
  · rw [hcandidates] at hstems
    obtain ⟨e, -, he⟩ := List.exists_of_findSome?_eq_some hstems
    obtain ⟨captured, -, rfl⟩ := Option.map_eq_some_iff.1 he
    obtain ⟨target, -, rfl⟩ := List.mem_map.1 hstem
    exact Path.toProject_toProject _
  · exact ofTable_filter table base
  · rw [hcandidates, candidates?_ofTable, candidates?_ofTable, List.findSome?_append]
    rfl

/-- The ends of a pattern do not overlap in the specifier. -/
example : (ofTable ⟨[⟨"ab*ba".toList, ["x".toList]⟩]⟩ []).candidates? "aba".toList = none := by
  decide

end AliasResolver

end SourceClosure
