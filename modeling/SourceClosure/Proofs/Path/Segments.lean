import SourceClosure.Path.Basic

/-!
# Segments of a path

Normalising is walking: a stack of segments is carried along the path from left to right. A path
that is written behind another is walked from the stack that the first one left, so the two walks
compose, even where a `..` too many is discarded. From this follow the shape of a normal form,
that a project path denotes itself, and that joining onto a directory depends only on where the
directory leads.
-/

namespace SourceClosure

/-! ## Splitting -/

namespace Text

theorem splitWhere_sep {isSep : Char → Bool} {c : Char} (h : isSep c = true) (t : Text) :
    splitWhere isSep (c :: t) = [] :: splitWhere isSep t := by
  simp [splitWhere, h]

theorem splitWhere_ne_nil (isSep : Char → Bool) (t : Text) : splitWhere isSep t ≠ [] := by
  cases t with
  | nil => simp [splitWhere]
  | cons d t =>
    simp only [splitWhere, List.foldr_cons]
    split
    · simp
    · split <;> simp

theorem exists_splitWhere_cons {isSep : Char → Bool} {c : Char} (h : isSep c = false) (t : Text) :
    ∃ piece pieces, splitWhere isSep t = piece :: pieces ∧
      splitWhere isSep (c :: t) = (c :: piece) :: pieces := by
  obtain ⟨piece, pieces, ht⟩ := List.exists_cons_of_ne_nil (splitWhere_ne_nil isSep t)
  refine ⟨piece, pieces, ht, ?_⟩
  unfold splitWhere at ht ⊢
  rw [List.foldr_cons, ht]
  simp [h]

/-- Splitting goes piece by piece: a separator ends what stands before it. -/
theorem splitWhere_append_sep {isSep : Char → Bool} {c : Char} (h : isSep c = true)
    (s t : Text) : splitWhere isSep (s ++ c :: t) = splitWhere isSep s ++ splitWhere isSep t := by
  induction s with
  | nil => simpa [splitWhere] using splitWhere_sep h t
  | cons d s ih =>
    cases hd : isSep d with
    | true => rw [List.cons_append, splitWhere_sep hd, splitWhere_sep hd, ih, List.cons_append]
    | false =>
      obtain ⟨piece, pieces, hs, hcons⟩ := exists_splitWhere_cons hd s
      obtain ⟨piece', pieces', hst, hcons'⟩ := exists_splitWhere_cons hd (s ++ c :: t)
      rw [ih, hs, List.cons_append, List.cons.injEq] at hst
      rw [List.cons_append, hcons', hcons, ← hst.1, ← hst.2, List.cons_append]

theorem splitWhere_of_forall_not {isSep : Char → Bool} {t : Text}
    (h : ∀ c ∈ t, isSep c = false) : splitWhere isSep t = [t] := by
  induction t with
  | nil => rfl
  | cons c t ih =>
    obtain ⟨piece, pieces, ht, hcons⟩ := exists_splitWhere_cons (h c (by simp)) t
    rw [ih (fun d hd => h d (by simp [hd])), List.cons.injEq] at ht
    rw [hcons, ← ht.1, ← ht.2]

/-- A piece holds no separator, and nothing that the text does not hold. -/
theorem of_mem_splitWhere {isSep : Char → Bool} {t piece : Text} {c : Char}
    (hp : piece ∈ splitWhere isSep t) (hc : c ∈ piece) : isSep c = false ∧ c ∈ t := by
  induction t generalizing piece with
  | nil => simp_all [splitWhere]
  | cons d t ih =>
    cases hd : isSep d with
    | true =>
      rw [splitWhere_sep hd] at hp
      rcases List.mem_cons.1 hp with rfl | hp
      · simp at hc
      · exact ⟨(ih hp hc).1, List.mem_cons_of_mem _ (ih hp hc).2⟩
    | false =>
      obtain ⟨first, pieces, ht, hcons⟩ := exists_splitWhere_cons hd t
      rw [hcons] at hp
      rcases List.mem_cons.1 hp with rfl | hp
      · rcases List.mem_cons.1 hc with rfl | hc
        · exact ⟨hd, by simp⟩
        · have h := ih (by rw [ht]; simp) hc
          exact ⟨h.1, List.mem_cons_of_mem _ h.2⟩
      · have h := ih (by rw [ht]; simp [hp]) hc
        exact ⟨h.1, List.mem_cons_of_mem _ h.2⟩

theorem split_append_sep (sep : Char) (s t : Text) :
    split sep (s ++ sep :: t) = split sep s ++ split sep t :=
  splitWhere_append_sep (by simp) s t

theorem split_of_not_mem {sep : Char} {t : Text} (h : sep ∉ t) : split sep t = [t] := by
  refine splitWhere_of_forall_not ?_
  intro c hc
  simp only [beq_eq_false_iff_ne]
  rintro rfl
  exact h hc

end Text

namespace Path

/-! ## Slashes -/

theorem slashes_append (p q : Text) : slashes (p ++ q) = slashes p ++ slashes q := by
  simp [slashes]

theorem slashes_cons (c : Char) (p : Text) :
    slashes (c :: p) = (if c = '\\' then '/' else c) :: slashes p := rfl

theorem backslash_not_mem_slashes (p : Text) : '\\' ∉ slashes p := by
  intro h
  obtain ⟨c, -, hc⟩ := List.mem_map.1 h
  split at hc
  · exact absurd hc (by decide)
  · next hne => exact hne hc

theorem slashes_of_not_mem {p : Text} (h : '\\' ∉ p) : slashes p = p := by
  induction p with
  | nil => rfl
  | cons c p ih =>
    simp only [List.mem_cons, not_or] at h
    rw [slashes_cons, if_neg (Ne.symm h.1), ih h.2]

theorem slashes_slashes (p : Text) : slashes (slashes p) = slashes p :=
  slashes_of_not_mem (backslash_not_mem_slashes p)

/-! ## Walking along a path -/

/-- A segment that names something, and that no path walks past. -/
structure IsName (x : Text) : Prop where
  ne_nil : x ≠ []
  ne_here : x ≠ here
  ne_up : x ≠ up
  slash : '/' ∉ x
  backslash : '\\' ∉ x

/-- The stack of segments that a path leads to from another one. -/
def walk (stack : List Text) (p : Text) : List Text :=
  (Text.split '/' (slashes p)).foldl pushSegment stack

theorem segments_eq_walk (p : Text) : segments p = (walk [] p).reverse := rfl

@[simp] theorem walk_nil (stack : List Text) : walk stack [] = stack := by
  simp [walk, slashes, Text.split, Text.splitWhere, pushSegment]

/-- The walk along two paths goes along the first and then along the second. -/
theorem walk_append_slash (stack : List Text) (p q : Text) :
    walk stack (p ++ '/' :: q) = walk (walk stack p) q := by
  rw [walk, slashes_append, slashes_cons, if_neg (by decide), Text.split_append_sep,
    List.foldl_append]
  rfl

theorem walk_name {x : Text} (hx : IsName x) (stack : List Text) : walk stack x = x :: stack := by
  rw [walk, slashes_of_not_mem hx.backslash, Text.split_of_not_mem hx.slash, List.foldl_cons,
    List.foldl_nil, pushSegment, if_neg (by simp [hx.ne_nil, hx.ne_here]), if_neg hx.ne_up]

/-- A walk only ever holds names. -/
theorem isName_of_mem_walk {stack : List Text} (hs : ∀ x ∈ stack, IsName x) (p : Text) :
    ∀ x ∈ walk stack p, IsName x := by
  have hpieces : ∀ y ∈ Text.split '/' (slashes p), '/' ∉ y ∧ '\\' ∉ y := by
    intro y hy
    constructor
    · intro hc
      exact absurd (Text.of_mem_splitWhere hy hc).1 (by decide)
    · intro hc
      exact backslash_not_mem_slashes p (Text.of_mem_splitWhere hy hc).2
  unfold walk
  generalize Text.split '/' (slashes p) = pieces at hpieces
  induction pieces generalizing stack with
  | nil => exact hs
  | cons y pieces ih =>
    refine ih ?_ (fun z hz => hpieces z (by simp [hz]))
    intro x hx
    unfold pushSegment at hx
    split at hx
    · exact hs x hx
    · next hy =>
      split at hx
      · exact hs x (List.mem_of_mem_tail hx)
      · next hup =>
        rcases List.mem_cons.1 hx with rfl | hx
        · have hsep := hpieces x (by simp)
          exact ⟨fun h => hy (.inl h), fun h => hy (.inr h), hup, hsep.1, hsep.2⟩
        · exact hs x hx

theorem isName_of_mem_segments {p x : Text} (hx : x ∈ segments p) : IsName x :=
  isName_of_mem_walk (List.forall_mem_nil _) p x (by simpa [segments_eq_walk] using hx)

/-! ## Written segments -/

theorem ofSegments_cons_cons (x y : Text) (rest : List Text) :
    ofSegments (x :: y :: rest) = x ++ '/' :: ofSegments (y :: rest) := by
  simp [ofSegments, List.intercalate]

theorem ofSegments_concat {parts : List Text} (h : parts ≠ []) (x : Text) :
    ofSegments (parts ++ [x]) = ofSegments parts ++ '/' :: x := by
  induction parts with
  | nil => exact absurd rfl h
  | cons y parts ih =>
    cases parts with
    | nil => simp [ofSegments, List.intercalate]
    | cons z rest =>
      rw [List.cons_append, List.cons_append, ofSegments_cons_cons, ← List.cons_append,
        ih (by simp), ofSegments_cons_cons, List.append_assoc, List.cons_append]

theorem walk_ofSegments {parts : List Text} (h : ∀ x ∈ parts, IsName x) (stack : List Text) :
    walk stack (ofSegments parts) = parts.reverse ++ stack := by
  induction parts generalizing stack with
  | nil => exact walk_nil stack
  | cons x parts ih =>
    have hx := h x (by simp)
    cases parts with
    | nil => simpa [ofSegments, List.intercalate] using walk_name hx stack
    | cons y rest =>
      rw [ofSegments_cons_cons, walk_append_slash, walk_name hx,
        ih (fun z hz => h z (List.mem_cons_of_mem _ hz))]
      simp

theorem segments_ofSegments {parts : List Text} (h : ∀ x ∈ parts, IsName x) :
    segments (ofSegments parts) = parts := by
  rw [segments_eq_walk, walk_ofSegments h]
  simp

/-- Written segments are split into the segments again. -/
theorem split_ofSegments {parts : List Text} (hne : parts ≠ []) (h : ∀ x ∈ parts, IsName x) :
    Text.split '/' (ofSegments parts) = parts := by
  induction parts with
  | nil => exact absurd rfl hne
  | cons x parts ih =>
    obtain ⟨hx, hparts⟩ := List.forall_mem_cons.1 h
    cases parts with
    | nil => simpa [ofSegments, List.intercalate] using Text.split_of_not_mem hx.slash
    | cons y rest =>
      rw [ofSegments_cons_cons, Text.split_append_sep, Text.split_of_not_mem hx.slash,
        ih (List.cons_ne_nil y rest) hparts, List.singleton_append]

/-- What a path is split into writes the path. -/
theorem ofSegments_split (t : Text) : ofSegments (Text.split '/' t) = t := by
  induction t with
  | nil => rfl
  | cons c t ih =>
    by_cases hc : c = '/'
    · obtain ⟨piece, pieces, ht⟩ :=
        List.exists_cons_of_ne_nil (Text.splitWhere_ne_nil (· == '/') t)
      rw [Text.split, ht] at ih
      rw [hc, Text.split, Text.splitWhere_sep (by decide), ht, ofSegments_cons_cons, ih,
        List.nil_append]
    · obtain ⟨piece, pieces, ht, hct⟩ :=
        @Text.exists_splitWhere_cons (· == '/') c (by simpa using hc) t
      rw [Text.split, ht] at ih
      rw [Text.split, hct, ← ih]
      cases pieces with
      | nil => simp [ofSegments, List.intercalate]
      | cons next pieces => simp [ofSegments_cons_cons]

theorem backslash_not_mem_ofSegments {parts : List Text} (h : ∀ x ∈ parts, IsName x) :
    '\\' ∉ ofSegments parts := by
  induction parts with
  | nil => simp [ofSegments, List.intercalate]
  | cons x parts ih =>
    have hx := (h x (by simp)).backslash
    cases parts with
    | nil => simpa [ofSegments, List.intercalate] using hx
    | cons y rest =>
      have hrest := ih (fun z hz => h z (List.mem_cons_of_mem _ hz))
      rw [ofSegments_cons_cons]
      simp [hx, hrest]

/-- Written segments do not start with a slash. -/
theorem head?_ofSegments {parts : List Text} (h : ∀ x ∈ parts, IsName x) :
    (ofSegments parts).head? ≠ some '/' := by
  cases parts with
  | nil => simp [ofSegments, List.intercalate]
  | cons x parts =>
    have hx := h x (by simp)
    obtain ⟨c, x', rfl⟩ : ∃ c x', x = c :: x' := List.exists_cons_of_ne_nil hx.ne_nil
    have hc : c ≠ '/' := fun h => hx.slash (by simp [h])
    cases parts with
    | nil => simpa [ofSegments, List.intercalate] using hc
    | cons y rest =>
      rw [ofSegments_cons_cons]
      simpa using hc

/-! ## Project paths -/

theorem trimStart_slash_of_head? {t : Text} (h : t.head? ≠ some '/') :
    Text.trimStart (· == '/') t = t := by
  cases t with
  | nil => rfl
  | cons c t =>
    have hc : c ≠ '/' := by simpa using h
    simp [Text.trimStart, hc]

/-- A project path is what its segments write. -/
theorem toProject_eq (p : Text) : toProject p = ofSegments (segments p) := by
  have htrim := trimStart_slash_of_head? (head?_ofSegments (fun _ => isName_of_mem_segments (p := p)))
  unfold toProject normalize
  split
  · rw [Text.trimStart, List.dropWhile_cons, if_pos (by simp)]
    exact htrim
  · exact htrim

theorem segments_toProject (p : Text) : segments (toProject p) = segments p := by
  rw [toProject_eq, segments_ofSegments (fun _ => isName_of_mem_segments)]

/-- A project path denotes itself. -/
theorem toProject_toProject (p : Text) : toProject (toProject p) = toProject p := by
  rw [toProject_eq, segments_toProject, ← toProject_eq]

theorem toProject_eq_toProject {p q : Text} (h : segments p = segments q) :
    toProject p = toProject q := by
  rw [toProject_eq, h, ← toProject_eq]

/-- Away from the root of a file system, the normal form is the project path. -/
theorem normalize_eq_toProject {p : Text} (h : (slashes p).head? ≠ some '/') :
    normalize p = toProject p := by
  rw [toProject_eq, normalize, if_neg h]

theorem head?_toProject (p : Text) : (toProject p).head? ≠ some '/' := by
  rw [toProject_eq]
  exact head?_ofSegments (fun _ => isName_of_mem_segments)

theorem backslash_not_mem_toProject (p : Text) : '\\' ∉ toProject p := by
  rw [toProject_eq]
  exact backslash_not_mem_ofSegments (fun _ => isName_of_mem_segments)

/-! ## Uniform resource identifiers -/

/-- Different project paths are shown under different URIs. -/
theorem eq_of_toUri_eq {p q : Text} (hp : toProject p = p) (hq : toProject q = q)
    (h : toUri p = toUri q) : p = q := by
  have htrim {r : Text} (hr : toProject r = r) : Text.trimStart (· == '/') r = r :=
    trimStart_slash_of_head? (by rw [← hr]; exact head?_toProject r)
  unfold toUri at h
  rw [htrim hp, htrim hq] at h
  exact List.append_cancel_left h

/-! ## Joining -/

/-- A path that is not absolute is walked from where its base leads. -/
theorem walk_combine {base relative : Text} (h : isRooted relative = false) :
    walk [] (combine base relative) = walk (walk [] base) relative := by
  unfold combine
  split
  · next hb =>
    rcases hb with rfl | hr
    · rw [walk_nil]
    · rw [h] at hr
      cases hr
  · split
    · next hlast =>
      obtain ⟨b, rfl⟩ := List.getLast?_eq_some_iff.1 hlast
      rw [List.append_assoc, List.singleton_append, walk_append_slash, walk_append_slash, walk_nil]
    · rw [walk_append_slash]

theorem segments_combine {base base' relative : Text} (h : isRooted relative = false)
    (hb : segments base = segments base') :
    segments (combine base relative) = segments (combine base' relative) := by
  rw [segments_eq_walk, segments_eq_walk, List.reverse_inj] at hb
  rw [segments_eq_walk, segments_eq_walk, walk_combine h, walk_combine h, hb]

end Path

end SourceClosure
