import SourceClosure.Proofs.Path.Plain

/-!
# Below a directory

A path lies below a directory if its segments go on where those of the directory end; how either of
them is spelled does not matter. A name that is joined onto a directory stays below it
(`below_join`), and so does a path that gets a suffix (`Below.append_suffix`). Other joined paths may
lead anywhere: a `..` takes back what the directory is made of.
-/

namespace SourceClosure

namespace Path

/-! ## Written segments -/

theorem ofSegments_eq_nil_iff {parts : List Text} (h : ∀ x ∈ parts, IsName x) :
    ofSegments parts = [] ↔ parts = [] := by
  constructor
  · intro hnil
    rw [← segments_ofSegments h, hnil, segments_eq_walk, walk_nil, List.reverse_nil]
  · rintro rfl
    rfl

/-- Written segments are those of a directory, its slash, and the rest. -/
theorem ofSegments_append (parts : List Text) {rest : List Text} (h : rest ≠ []) :
    ofSegments (parts ++ rest) = folderOf parts ++ ofSegments rest := by
  induction parts with
  | nil => rfl
  | cons x parts ih =>
    obtain ⟨y, l, hyl⟩ := List.exists_cons_of_ne_nil (l := parts ++ rest) (by simp [h])
    rw [List.cons_append, hyl, ofSegments_cons_cons, ← hyl, ih]
    cases parts with
    | nil => simp [folderOf, ofSegments, List.intercalate]
    | cons z parts => simp [folderOf, ofSegments_cons_cons]

theorem segments_slash_cons (p : Text) : segments ('/' :: p) = segments p := by
  rw [← List.nil_append ('/' :: p), segments_eq_walk, walk_append_slash, walk_nil, segments_eq_walk]

theorem segments_normalize (p : Text) : segments (normalize p) = segments p := by
  have hwritten := segments_ofSegments (fun _ => isName_of_mem_segments (p := p))
  unfold normalize
  split
  · rw [segments_slash_cons, hwritten]
  · exact hwritten

/-- A suffix goes to the last segment. -/
theorem segments_normalize_append {p : Text} (h : segments p ≠ []) (s : Suffix) :
    segments (normalize p ++ s.text) =
      (segments p).dropLast ++ [(segments p).getLast h ++ s.text] := by
  have hname : ∀ x ∈ segments p, IsName x := fun _ => isName_of_mem_segments
  have hwritten : segments (ofSegments (segments p) ++ s.text) =
      (segments p).dropLast ++ [(segments p).getLast h ++ s.text] := by
    have hlast : ofSegments (segments p) ++ s.text =
        ofSegments ((segments p).dropLast ++ [(segments p).getLast h ++ s.text]) := by
      rw [ofSegments_append_last, List.dropLast_concat_getLast h]
    rw [hlast]
    refine segments_ofSegments (fun x hx => ?_)
    rcases List.mem_append.1 hx with hx | hx
    · exact hname x (List.dropLast_subset _ hx)
    · rw [List.mem_singleton.1 hx]
      exact (hname _ (List.getLast_mem h)).append_suffix s
  unfold normalize
  split
  · rw [List.cons_append, segments_slash_cons, hwritten]
  · exact hwritten

/-! ## Joining -/

/-- A name has no separator that it could start with. -/
theorem IsName.isRooted {x : Text} (hx : IsName x) : isRooted x = false := by
  have hsep : ∀ c ∈ x, isSeparator c = false := by
    intro c hc
    simp only [isSeparator, Bool.or_eq_false_iff, beq_eq_false_iff_ne]
    exact ⟨fun h => hx.slash (h ▸ hc), fun h => hx.backslash (h ▸ hc)⟩
  unfold Path.isRooted
  split
  · rw [hsep _ (by simp), hsep _ (by simp)]
    simp
  · exact hsep _ (by simp)
  · rfl

/-- What is joined onto a directory is walked from where the directory leads. -/
theorem segments_join {base relative : Text} (h : isRooted relative = false) :
    segments (join base relative) = (walk (walk [] base) relative).reverse := by
  rw [join, segments_normalize, segments_eq_walk, walk_combine h]

theorem walk_segment {x : Text} (hslash : '/' ∉ x) (hback : '\\' ∉ x) (stack : List Text) :
    walk stack x = pushSegment stack x := by
  rw [walk, slashes_of_not_mem hback, Text.split_of_not_mem hslash, List.foldl_cons, List.foldl_nil]

theorem segments_join_nil (base : Text) : segments (join base []) = segments base := by
  rw [segments_join rfl, walk_nil, segments_eq_walk]

/-- A name that is joined onto a directory comes behind the directory's segments. -/
theorem segments_join_name {x : Text} (hx : IsName x) (base : Text) :
    segments (join base x) = segments base ++ [x] := by
  rw [segments_join hx.isRooted, walk_name hx, List.reverse_cons, segments_eq_walk]

/-! ## Lying below -/

/-- The path lies below the directory, and not at it. -/
def Below (directory path : Text) : Prop :=
  segments directory <+: segments path ∧ segments directory ≠ segments path

instance (directory path : Text) : Decidable (Below directory path) :=
  inferInstanceAs (Decidable (_ ∧ _))

theorem below_iff {directory path : Text} :
    Below directory path ↔
      ∃ names, names ≠ [] ∧ segments path = segments directory ++ names := by
  constructor
  · rintro ⟨⟨names, hnames⟩, hne⟩
    refine ⟨names, ?_, hnames.symm⟩
    rintro rfl
    exact hne (by simpa using hnames)
  · rintro ⟨names, hne, hnames⟩
    exact ⟨⟨names, hnames.symm⟩, by simp [hnames, hne]⟩

theorem Below.trans {directory between path : Text} (h : Below directory between)
    (h' : Below between path) : Below directory path := by
  obtain ⟨names, hne, hnames⟩ := below_iff.1 h
  obtain ⟨names', -, hnames'⟩ := below_iff.1 h'
  exact below_iff.2 ⟨names ++ names', by simp [hne], by rw [hnames', hnames, List.append_assoc]⟩

theorem below_toProject_iff {directory path : Text} :
    Below directory (toProject path) ↔ Below directory path := by
  rw [Below, segments_toProject, Below]

theorem toProject_below_iff {directory path : Text} :
    Below (toProject directory) path ↔ Below directory path := by
  rw [Below, segments_toProject, Below]

theorem below_join {x : Text} (hx : IsName x) (base : Text) : Below base (join base x) :=
  below_iff.2 ⟨[x], List.cons_ne_nil x [], segments_join_name hx base⟩

/-- A suffix behind a normal form does not lead out of a directory. -/
theorem Below.append_suffix {directory p : Text} (h : Below directory (normalize p)) (s : Suffix) :
    Below directory (normalize p ++ s.text) := by
  obtain ⟨names, hne, hnames⟩ := below_iff.1 h
  rw [segments_normalize] at hnames
  have hparts : segments p ≠ [] := by simp [hnames, hne]
  refine below_iff.2 ⟨names.dropLast ++ [names.getLast hne ++ s.text], by simp, ?_⟩
  rw [segments_normalize_append hparts]
  simp only [hnames, List.dropLast_append_of_ne_nil hne, List.getLast_append_of_ne_nil _ hne,
    List.append_assoc]

end Path

end SourceClosure
