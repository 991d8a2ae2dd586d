import SourceClosure.Proofs.Path.Below
import SourceClosure.Proofs.Path.Join

/-!
# Normal forms

A path is in normal form if it is written with slashes, and with none of them, no `.` and no `..` too
many. Normalising gives such a path, and leaves such a path alone (`normalize_eq_self_iff`). It goes
from left to right, so the path of a directory may be normalised before a path is joined onto it
(`join_normalize`). That needs no cancellation law: none holds where a `..` too many is discarded.
-/

namespace SourceClosure

namespace Path

/-! ## Segments as they are written -/

/-- The pieces between the slashes of a text; an empty text has none. -/
def pieces (t : Text) : List Text :=
  if t = [] then [] else Text.split '/' t

/-- The segments that a path is written with, behind a slash that it starts with. -/
def writtenSegments (p : Text) : List Text :=
  pieces (if p.head? = some '/' then p.tail else p)

/-- The path is written with slashes, and none of its segments is one that normalising works off. -/
structure IsNormal (p : Text) : Prop where
  backslash : '\\' ∉ p
  ne_nil : ∀ x ∈ writtenSegments p, x ≠ []
  ne_here : ∀ x ∈ writtenSegments p, x ≠ here
  ne_up : ∀ x ∈ writtenSegments p, x ≠ up

theorem ofSegments_pieces (t : Text) : ofSegments (pieces t) = t := by
  unfold pieces
  by_cases ht : t = []
  · simp [ht, ofSegments, List.intercalate]
  · rw [if_neg ht, ofSegments_split]

theorem pieces_ofSegments {parts : List Text} (h : ∀ x ∈ parts, IsName x) :
    pieces (ofSegments parts) = parts := by
  unfold pieces
  by_cases hparts : parts = []
  · simp [hparts, ofSegments, List.intercalate]
  · rw [if_neg (fun hnil => hparts ((ofSegments_eq_nil_iff h).1 hnil)), split_ofSegments hparts h]

theorem of_mem_pieces {t x : Text} {c : Char} (hx : x ∈ pieces t) (hc : c ∈ x) :
    c ≠ '/' ∧ c ∈ t := by
  unfold pieces at hx
  split at hx
  · cases hx
  · obtain ⟨hsep, hmem⟩ := Text.of_mem_splitWhere hx hc
    exact ⟨by simpa using hsep, hmem⟩

/-- A path is what its segments write, behind the slash that it may start with. -/
theorem eq_ofSegments_writtenSegments (p : Text) :
    p = if p.head? = some '/' then '/' :: ofSegments (writtenSegments p)
      else ofSegments (writtenSegments p) := by
  unfold writtenSegments
  rw [ofSegments_pieces]
  by_cases hroot : p.head? = some '/'
  · obtain ⟨t, rfl⟩ := List.head?_eq_some_iff.1 hroot
    rfl
  · simp only [if_neg hroot]

theorem of_mem_writtenSegments {p x : Text} {c : Char} (hx : x ∈ writtenSegments p) (hc : c ∈ x) :
    c ≠ '/' ∧ c ∈ p := by
  obtain ⟨hslash, hmem⟩ := of_mem_pieces hx hc
  refine ⟨hslash, ?_⟩
  split at hmem
  · exact List.mem_of_mem_tail hmem
  · exact hmem

/-! ## Normal forms are what normalising gives -/

theorem writtenSegments_normalize (p : Text) : writtenSegments (normalize p) = segments p := by
  have hname : ∀ x ∈ segments p, IsName x := fun _ => isName_of_mem_segments
  unfold writtenSegments normalize
  split
  · exact pieces_ofSegments hname
  · rw [if_neg (head?_ofSegments hname), pieces_ofSegments hname]

theorem isNormal_normalize (p : Text) : IsNormal (normalize p) := by
  have hname : ∀ x ∈ segments p, IsName x := fun _ => isName_of_mem_segments
  refine ⟨?_, ?_, ?_, ?_⟩
  · have hback := backslash_not_mem_ofSegments hname
    unfold normalize
    split
    · simp [hback]
    · exact hback
  all_goals
    rw [writtenSegments_normalize]
    intro x hx
  · exact (hname x hx).ne_nil
  · exact (hname x hx).ne_here
  · exact (hname x hx).ne_up

theorem IsNormal.isName {p x : Text} (h : IsNormal p) (hx : x ∈ writtenSegments p) : IsName x where
  ne_nil := h.ne_nil x hx
  ne_here := h.ne_here x hx
  ne_up := h.ne_up x hx
  slash hc := (of_mem_writtenSegments hx hc).1 rfl
  backslash hc := h.backslash (of_mem_writtenSegments hx hc).2

/-- Normalising leaves a path in normal form alone. -/
theorem IsNormal.normalize_eq {p : Text} (h : IsNormal p) : normalize p = p := by
  have hwritten := eq_ofSegments_writtenSegments p
  have hsegments : segments p = writtenSegments p := by
    have hname := segments_ofSegments (fun _ => h.isName)
    by_cases hroot : p.head? = some '/'
    · rw [if_pos hroot] at hwritten
      rw [hwritten, segments_slash_cons, hname, ← hwritten]
    · rw [if_neg hroot] at hwritten
      rw [hwritten, hname, ← hwritten]
  unfold normalize
  rw [slashes_of_not_mem h.backslash, hsegments]
  exact hwritten.symm

/-- The paths in normal form are those that normalising leaves alone. -/
theorem normalize_eq_self_iff {p : Text} : normalize p = p ↔ IsNormal p := by
  constructor
  · intro h
    rw [← h]
    exact isNormal_normalize p
  · exact IsNormal.normalize_eq

theorem normalize_normalize (p : Text) : normalize (normalize p) = normalize p :=
  (isNormal_normalize p).normalize_eq

/-! ## Paths from the root of a file system -/

theorem fromRoot_iff {p : Text} : FromRoot p ↔ p.head? = some '/' ∨ p.head? = some '\\' := by
  unfold FromRoot
  cases p with
  | nil => simp [slashes]
  | cons c p =>
    rw [slashes_cons]
    by_cases hc : c = '\\' <;> simp [hc]

theorem head?_normalize_iff {p : Text} : (normalize p).head? = some '/' ↔ FromRoot p := by
  have hhead := head?_ofSegments (fun _ => isName_of_mem_segments (p := p))
  unfold normalize FromRoot
  by_cases hroot : (slashes p).head? = some '/'
  · simp [hroot]
  · rw [if_neg hroot]
    exact ⟨fun h => absurd h hhead, fun h => absurd h hroot⟩

theorem fromRoot_normalize_iff {p : Text} : FromRoot (normalize p) ↔ FromRoot p := by
  rw [FromRoot, slashes_of_not_mem (isNormal_normalize p).backslash, head?_normalize_iff]

/-- A path that is not absolute does not start at the root of a file system. -/
theorem not_fromRoot_of_isRooted {p : Text} (h : isRooted p = false) : ¬ FromRoot p := by
  rw [fromRoot_iff]
  unfold isRooted at h
  split at h
  · simp_all [isSeparator]
  · simp_all [isSeparator]
  · simp

theorem fromRoot_combine_iff {base relative : Text} (h : isRooted relative = false) :
    FromRoot (combine base relative) ↔ FromRoot base := by
  constructor
  · intro hroot
    exact (fromRoot_of_combine hroot).resolve_right (not_fromRoot_of_isRooted h)
  · intro hroot
    obtain ⟨c, t, rfl⟩ : ∃ c t, base = c :: t := by
      refine List.exists_cons_of_ne_nil ?_
      rintro rfl
      cases hroot
    unfold combine
    rw [if_neg (by simp [h])]
    split <;> exact hroot

/-! ## Joining onto a normal form -/

theorem normalize_congr {p q : Text} (hroot : FromRoot p ↔ FromRoot q)
    (hsegments : segments p = segments q) : normalize p = normalize q := by
  unfold FromRoot at hroot
  unfold normalize
  rw [hsegments]
  by_cases hq : (slashes q).head? = some '/'
  · rw [if_pos hq, if_pos (hroot.2 hq)]
  · rw [if_neg hq, if_neg (fun hp => hq (hroot.1 hp))]

/-- A path that is not absolute leads from the normal form of a directory to where it leads from the
directory. -/
theorem join_normalize {relative : Text} (h : isRooted relative = false) (base : Text) :
    join (normalize base) relative = join base relative := by
  refine normalize_congr ?_ (segments_combine h (segments_normalize base))
  rw [fromRoot_combine_iff h, fromRoot_combine_iff h, fromRoot_normalize_iff]

/-- Paths may be joined one by one, or be appended first. -/
theorem join_join (base relative next : Text) :
    join (join base relative) next = normalize (combine (combine base relative) next) := by
  cases h : isRooted next with
  | false => exact join_normalize h (combine base relative)
  | true => simp [join, combine, h]

/-- One more segment at the end of a path is worked off last. -/
theorem writtenSegments_normalize_append {x : Text} (hslash : '/' ∉ x) (hback : '\\' ∉ x) (p : Text) :
    writtenSegments (normalize (p ++ '/' :: x)) =
      if x = [] ∨ x = here then writtenSegments (normalize p)
      else if x = up then (writtenSegments (normalize p)).dropLast
      else writtenSegments (normalize p) ++ [x] := by
  rw [writtenSegments_normalize, writtenSegments_normalize, segments_eq_walk, walk_append_slash,
    walk_segment hslash hback, segments_eq_walk, pushSegment]
  split
  · rfl
  · split
    · rw [List.dropLast_reverse]
    · rw [List.reverse_cons]

/-- Normalising gives normal forms, leaves them alone, keeps a separator at the start as a slash, and
works the segments off from left to right. A path that is not absolute leads to the same place however
the directory is spelled that it is joined onto, also where a `..` too many is discarded; and paths that
are joined one after the other lead to where they lead together. -/
theorem normalize_left_to_right :
    (∀ p : Text, IsNormal (normalize p) ∧
      ((normalize p).head? = some '/' ↔ p.head? = some '/' ∨ p.head? = some '\\') ∧
      normalize (normalize p) = normalize p ∧ (normalize p = p ↔ IsNormal p) ∧
      ∀ x : Text, '/' ∉ x → '\\' ∉ x →
        writtenSegments (normalize (p ++ '/' :: x)) =
          if x = [] ∨ x = here then writtenSegments (normalize p)
          else if x = up then (writtenSegments (normalize p)).dropLast
          else writtenSegments (normalize p) ++ [x]) ∧
    ∀ base relative : Text, isRooted relative = false →
      join base relative = join (normalize base) relative ∧
      (∀ base' : Text, normalize base = normalize base' →
        join base relative = join base' relative) ∧
      ∀ next : Text,
        join (join base relative) next = normalize (combine (combine base relative) next) := by
  refine ⟨fun p => ⟨isNormal_normalize p, ?_, normalize_normalize p, normalize_eq_self_iff, ?_⟩, ?_⟩
  · rw [head?_normalize_iff, fromRoot_iff]
  · intro x hslash hback
    exact writtenSegments_normalize_append hslash hback p
  · intro base relative h
    refine ⟨(join_normalize h base).symm, ?_, join_join base relative⟩
    intro base' hbase
    calc
      join base relative = join (normalize base) relative := (join_normalize h base).symm
      _ = join (normalize base') relative := by rw [hbase]
      _ = join base' relative := join_normalize h base'

/-- Both spellings of the directory lead to it, though one climbs above its starting point. -/
theorem normalize_left_to_right_clamped :
    (isRooted "../b".toList = false ∧
      join "a/../../c".toList "../b".toList = join "c".toList "../b".toList ∧
      join "c".toList "../b".toList = "b".toList) ∧
    '/' ∉ up ∧ '\\' ∉ up ∧ writtenSegments (normalize "a/../../..".toList) = [] := by
  have h : isRooted "../b".toList = false := by decide
  have hsame : normalize "a/../../c".toList = normalize "c".toList := by decide
  have hslash : '/' ∉ up := by decide
  have hback : '\\' ∉ up := by decide
  obtain ⟨hnormal, hjoin⟩ := normalize_left_to_right
  obtain ⟨-, -, -, -, hlast⟩ := hnormal "a/../..".toList
  exact ⟨⟨h, (hjoin _ _ h).2.1 _ hsame, by decide⟩, hslash, hback, hlast up hslash hback⟩

end Path

end SourceClosure
