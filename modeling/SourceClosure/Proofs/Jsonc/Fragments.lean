import SourceClosure.Proofs.Jsonc.Scan
import SourceClosure.Proofs.Text.Cutting

/-!
# Fragments of a relaxed text

Every text is cut in one way, from left to right, into strings, comments and other characters
(`exists_cuts`, `Cuts.unique`). A string or a block comment that is not closed goes on to the end of the
text. The first pass keeps the strings and the other characters, and the line breaks of the comments.
So what is kept stays on its line, and since a slash that is kept has the same character behind it as
before, no new comment comes about where one was removed.
-/

namespace SourceClosure

namespace Jsonc

/-! ## Where strings and comments end -/

/-- What belongs to a string behind its opening quotation mark, and what stands behind the string. -/
inductive StringEnds : Text → Text → Prop where
  | closed {rest : Text} : StringEnds ['"'] rest
  | unclosed : StringEnds [] []
  /-- A backslash at the end of the text. -/
  | cut : StringEnds ['\\'] []
  | plain {c : Char} {s rest : Text} : c ≠ '"' → c ≠ '\\' → StringEnds s rest →
      StringEnds (c :: s) rest
  /-- A backslash takes the next character with it. -/
  | escape {c : Char} {s rest : Text} : StringEnds s rest → StringEnds ('\\' :: c :: s) rest

/-- What belongs to a comment behind two slashes, and what stands behind the comment. -/
inductive LineEnds : Text → Text → Prop where
  | closed {body rest : Text} : '\n' ∉ body → LineEnds body ('\n' :: rest)
  | unclosed {body : Text} : '\n' ∉ body → LineEnds body []

/-- What belongs to a comment behind a slash and an asterisk, and what stands behind the comment. -/
inductive BlockEnds : Text → Text → Prop where
  | closed {body rest : Text} : ¬ "*/".toList <:+: body → BlockEnds (body ++ ['*', '/']) rest
  | unclosed {body : Text} : ¬ "*/".toList <:+: body → BlockEnds body []

theorem exists_stringEnds (t : Text) : ∃ s rest, t = s ++ rest ∧ StringEnds s rest := by
  induction h : t.length using Nat.strong_induction_on generalizing t with
  | h n ih =>
    cases t with
    | nil => exact ⟨[], [], rfl, .unclosed⟩
    | cons c t =>
      by_cases hquote : c = '"'
      · exact ⟨['"'], t, by rw [hquote]; rfl, .closed⟩
      by_cases hback : c = '\\'
      · cases t with
        | nil => exact ⟨['\\'], [], by rw [hback]; rfl, .cut⟩
        | cons d t =>
          simp only [List.length_cons] at h
          obtain ⟨s, rest, rfl, hs⟩ := ih t.length (by omega) t rfl
          exact ⟨'\\' :: d :: s, rest, by rw [hback]; rfl, .escape hs⟩
      · simp only [List.length_cons] at h
        obtain ⟨s, rest, rfl, hs⟩ := ih t.length (by omega) t rfl
        exact ⟨c :: s, rest, rfl, .plain hquote hback hs⟩

theorem exists_lineEnds (t : Text) : ∃ s rest, t = s ++ rest ∧ LineEnds s rest := by
  rcases exists_first_line t with ⟨body, rest, rfl, hbody⟩ | hbody
  · exact ⟨body, '\n' :: rest, rfl, .closed hbody⟩
  · exact ⟨t, [], by simp, .unclosed hbody⟩

theorem exists_blockEnds (t : Text) : ∃ s rest, t = s ++ rest ∧ BlockEnds s rest := by
  rcases exists_first_end t with ⟨body, rest, rfl, hbody⟩ | hbody
  · exact ⟨body ++ ['*', '/'], rest, by simp, .closed hbody⟩
  · exact ⟨t, [], by simp, .unclosed hbody⟩

theorem StringEnds.unique {s s' rest rest' : Text} (h : StringEnds s rest)
    (h' : StringEnds s' rest') (heq : s ++ rest = s' ++ rest') : s = s' ∧ rest = rest' := by
  induction h generalizing s' with
  | closed => cases h' <;> grind
  | unclosed => cases h' <;> grind
  | cut => cases h' <;> grind
  | plain hquote hback _ ih =>
    cases h' with
    | plain _ _ h' =>
      rw [List.cons_append, List.cons_append, List.cons.injEq] at heq
      obtain ⟨rfl, rfl⟩ := ih h' heq.2
      exact ⟨by rw [heq.1], rfl⟩
    | _ => grind
  | escape _ ih =>
    cases h' with
    | escape h' =>
      simp only [List.cons_append, List.cons.injEq, true_and] at heq
      obtain ⟨rfl, rfl⟩ := ih h' heq.2
      exact ⟨by rw [heq.1], rfl⟩
    | _ => grind

theorem LineEnds.not_mem {s rest : Text} (h : LineEnds s rest) : '\n' ∉ s := by
  cases h with
  | closed hbody => exact hbody
  | unclosed hbody => exact hbody

theorem LineEnds.unique {s s' rest rest' : Text} (h : LineEnds s rest) (h' : LineEnds s' rest')
    (heq : s ++ rest = s' ++ rest') : s = s' ∧ rest = rest' := by
  cases h with
  | @closed rest hbody =>
    cases h' with
    | @closed rest' hbody' =>
      have hsplit := Text.splitOnce_append hbody rest
      rw [heq, Text.splitOnce_append hbody' rest'] at hsplit
      cases hsplit
      exact ⟨rfl, rfl⟩
    | unclosed hbody' =>
      rw [List.append_nil] at heq
      exact absurd (heq ▸ by simp) hbody'
  | unclosed hbody =>
    rw [List.append_nil] at heq
    cases h' with
    | closed _ => exact absurd (heq ▸ by simp) hbody
    | unclosed _ => exact ⟨by simpa using heq, rfl⟩

/-- An asterisk behind the body ends no comment before its slash comes. -/
theorem not_infix_append_asterisk {body : Text} (h : ¬ "*/".toList <:+: body) :
    ¬ "*/".toList <:+: body ++ ['*'] := by
  rw [List.infix_concat_iff, not_or]
  refine ⟨?_, h⟩
  rintro ⟨t, ht⟩
  have hcut : (t ++ ['*']) ++ ['/'] = body ++ ['*'] := by simpa using ht
  have hlast := (List.append_inj' hcut rfl).2
  simp at hlast

theorem BlockEnds.unique {s s' rest rest' : Text} (h : BlockEnds s rest)
    (h' : BlockEnds s' rest') (heq : s ++ rest = s' ++ rest') : s = s' ∧ rest = rest' := by
  have hend : "*/".toList ≠ [] := by decide
  cases h with
  | @closed body _ hbody =>
    cases h' with
    | @closed body' _ hbody' =>
      have hsplit := Text.splitOnceAt_append hend (not_infix_append_asterisk hbody) rest
      have hsplit' := Text.splitOnceAt_append hend (not_infix_append_asterisk hbody') rest'
      have hsame : body ++ "*/".toList ++ rest = body' ++ "*/".toList ++ rest' := heq
      rw [hsame, hsplit'] at hsplit
      cases hsplit
      exact ⟨rfl, rfl⟩
    | unclosed hbody' =>
      rw [List.append_nil, List.append_assoc] at heq
      exact absurd ⟨body, rest, by simpa using heq⟩ hbody'
  | unclosed hbody =>
    rw [List.append_nil] at heq
    cases h' with
    | @closed body' _ hbody' =>
      rw [List.append_assoc] at heq
      exact absurd ⟨body', rest', by simpa using heq.symm⟩ hbody
    | unclosed _ => exact ⟨by simpa using heq, rfl⟩

/-! ## What is kept of strings and comments -/

theorem StringEnds.keptFrom_eq {s rest : Text} (h : StringEnds s rest) :
    keptFrom .string (s ++ rest) = s ++ keptFrom .code rest := by
  induction h with
  | closed => rfl
  | unclosed => rfl
  | cut => rfl
  | plain hquote hback _ ih =>
    rw [List.cons_append, keptFrom_cons]
    simp [Place.step, hquote, hback, ih]
  | escape _ ih =>
    rw [List.cons_append, List.cons_append, keptFrom_cons, keptFrom_cons]
    simp [Place.step, ih]

theorem LineEnds.keptFrom_eq {s rest : Text} (h : LineEnds s rest) :
    keptFrom .line (s ++ rest) = keptFrom .code rest := by
  have hline {rest : Text} (hbody : '\n' ∉ s) : keptFrom .line (s ++ rest) = keptFrom .line rest :=
    keptFrom_append_of_scan (k := []) (fun kept => scanComments_line hbody kept) rest
  cases h with
  | closed hbody =>
    rw [hline hbody]
    rfl
  | unclosed hbody =>
    rw [hline hbody]
    rfl

theorem BlockEnds.keptFrom_eq {s rest : Text} (h : BlockEnds s rest) :
    keptFrom (.block false) (s ++ rest) = s.filter (· = '\n') ++ keptFrom .code rest := by
  have hfresh {body : Text} : false = true → body.head? ≠ some '/' := by simp
  cases h with
  | @closed body _ hbody =>
    have hfilter : (body ++ ['*', '/']).filter (· = '\n') = body.filter (· = '\n') := by simp
    rw [hfilter]
    exact keptFrom_append_of_scan (fun kept => scanComments_block hbody hfresh kept) rest
  | unclosed hbody =>
    rw [List.append_nil, keptFrom_block hbody hfresh]
    simp [keptFrom, Place.final]

/-! ## Fragments -/

/-- A part of a text: a string or a comment as it is written, or another character. -/
inductive Fragment where
  | string (t : Text)
  | comment (t : Text)
  | other (c : Char)
  deriving DecidableEq, Repr

namespace Fragment

/-- What the fragment is written as. -/
def text : Fragment → Text
  | string t => t
  | comment t => t
  | other c => [c]

/-- Whether a character of the fragment stays: in comments only line breaks do. -/
def keeps : Fragment → Char → Bool
  | comment _, c => c = '\n'
  | _, _ => true

/-- What stays of the fragment. -/
def kept (f : Fragment) : Text :=
  f.text.filter f.keeps

/-- The fragment starts a text outside of strings and comments, if the other text follows it. -/
inductive Fits : Fragment → Text → Prop where
  | string {s rest : Text} : StringEnds s rest → Fits (.string ('"' :: s)) rest
  | line {s rest : Text} : LineEnds s rest → Fits (.comment ('/' :: '/' :: s)) rest
  | block {s rest : Text} : BlockEnds s rest → Fits (.comment ('/' :: '*' :: s)) rest
  | other {c : Char} {rest : Text} : c ≠ '"' →
      (c = '/' → rest.head? ≠ some '/' ∧ rest.head? ≠ some '*') → Fits (.other c) rest

theorem Fits.text_ne_nil {f : Fragment} {rest : Text} (h : f.Fits rest) : f.text ≠ [] := by
  cases h <;> simp [text]

theorem exists_fits {t : Text} (hne : t ≠ []) : ∃ f rest, t = text f ++ rest ∧ f.Fits rest := by
  obtain ⟨c, t, rfl⟩ := List.exists_cons_of_ne_nil hne
  by_cases hquote : c = '"'
  · obtain ⟨s, rest, rfl, hs⟩ := exists_stringEnds t
    exact ⟨.string ('"' :: s), rest, by simp [text, hquote], .string hs⟩
  by_cases hline : c = '/' ∧ t.head? = some '/'
  · obtain ⟨rfl, hhead⟩ := hline
    obtain ⟨t, rfl⟩ := List.head?_eq_some_iff.1 hhead
    obtain ⟨s, rest, rfl, hs⟩ := exists_lineEnds t
    exact ⟨.comment ('/' :: '/' :: s), rest, rfl, .line hs⟩
  by_cases hblock : c = '/' ∧ t.head? = some '*'
  · obtain ⟨rfl, hhead⟩ := hblock
    obtain ⟨t, rfl⟩ := List.head?_eq_some_iff.1 hhead
    obtain ⟨s, rest, rfl, hs⟩ := exists_blockEnds t
    exact ⟨.comment ('/' :: '*' :: s), rest, rfl, .block hs⟩
  · refine ⟨.other c, t, rfl, .other hquote (fun hslash => ⟨?_, ?_⟩)⟩
    · exact fun hhead => hline ⟨hslash, hhead⟩
    · exact fun hhead => hblock ⟨hslash, hhead⟩

/-- Where another character comes first, neither a string nor a comment starts. -/
theorem Fits.cons_ne {c : Char} {rest : Text} (h : Fits (.other c) rest) (t : Text) :
    c :: rest ≠ '"' :: t ∧ c :: rest ≠ '/' :: '/' :: t ∧ c :: rest ≠ '/' :: '*' :: t := by
  cases h with
  | other hquote hslash =>
    refine ⟨?_, ?_, ?_⟩
    all_goals
      intro heq
      cases heq
    · exact hquote rfl
    · exact (hslash rfl).1 rfl
    · exact (hslash rfl).2 rfl

/-- A text starts with one fragment only. -/
theorem Fits.unique {f g : Fragment} {rest rest' : Text} (hf : f.Fits rest) (hg : g.Fits rest')
    (heq : f.text ++ rest = g.text ++ rest') : f = g ∧ rest = rest' := by
  cases hf with
  | string hs =>
    cases hg with
    | string hs' =>
      obtain ⟨rfl, rfl⟩ := hs.unique hs' (by simpa [text] using heq)
      exact ⟨rfl, rfl⟩
    | other hquote hslash => exact absurd heq.symm ((Fits.other hquote hslash).cons_ne _).1
    | _ => simp [text] at heq
  | line hs =>
    cases hg with
    | line hs' =>
      obtain ⟨rfl, rfl⟩ := hs.unique hs' (by simpa [text] using heq)
      exact ⟨rfl, rfl⟩
    | other hquote hslash => exact absurd heq.symm ((Fits.other hquote hslash).cons_ne _).2.1
    | _ => simp [text] at heq
  | block hs =>
    cases hg with
    | block hs' =>
      obtain ⟨rfl, rfl⟩ := hs.unique hs' (by simpa [text] using heq)
      exact ⟨rfl, rfl⟩
    | other hquote hslash => exact absurd heq.symm ((Fits.other hquote hslash).cons_ne _).2.2
    | _ => simp [text] at heq
  | other hquote hslash =>
    have hne := (Fits.other hquote hslash).cons_ne
    cases hg with
    | string _ => exact absurd heq (hne _).1
    | line _ => exact absurd heq (hne _).2.1
    | block _ => exact absurd heq (hne _).2.2
    | other _ _ => simpa [text] using heq

/-- Strings and other characters stay as they are. -/
theorem kept_eq_text {f : Fragment} (h : ∀ t, f ≠ .comment t) : f.kept = f.text := by
  cases f with
  | comment t => exact absurd rfl (h t)
  | string t => simp [kept, keeps, text]
  | other c => simp [kept, keeps, text]

theorem kept_comment (t : Text) : (comment t).kept = t.filter (· = '\n') := rfl

theorem Fits.keptFrom_eq {f : Fragment} {rest : Text} (h : f.Fits rest) :
    keptFrom .code (f.text ++ rest) = f.kept ++ keptFrom .code rest := by
  cases h with
  | @string s _ hs =>
    have hcode : keptFrom .code ('"' :: (s ++ rest)) = '"' :: keptFrom .string (s ++ rest) := rfl
    rw [kept_eq_text (by simp), text, List.cons_append, hcode, hs.keptFrom_eq, List.cons_append]
  | @line s _ hs =>
    have hcode : keptFrom .code ('/' :: '/' :: (s ++ rest)) = keptFrom .line (s ++ rest) := rfl
    have hkept : (comment ('/' :: '/' :: s)).kept = [] := by
      rw [kept_comment, List.filter_eq_nil_iff]
      intro c hc hline
      have hmem : '\n' ∉ '/' :: '/' :: s := by simp [hs.not_mem]
      exact hmem (of_decide_eq_true hline ▸ hc)
    rw [hkept, text, List.cons_append, List.cons_append, hcode, hs.keptFrom_eq, List.nil_append]
  | @block s _ hs =>
    have hcode : keptFrom .code ('/' :: '*' :: (s ++ rest)) = keptFrom (.block false) (s ++ rest) :=
      rfl
    have hkept : (comment ('/' :: '*' :: s)).kept = s.filter (· = '\n') := by
      simp [kept_comment]
    rw [hkept, text, List.cons_append, List.cons_append, hcode, hs.keptFrom_eq]
  | @other c _ hquote hslash =>
    rw [kept_eq_text (by simp), text, List.singleton_append, List.singleton_append]
    by_cases hc : c = '/'
    · subst hc
      exact keptFrom_slash (hslash rfl).1 (hslash rfl).2
    · rw [keptFrom_code_cons hc, if_neg hquote]

theorem count_kept (f : Fragment) : f.kept.count '\n' = f.text.count '\n' := by
  refine List.count_filter ?_
  cases f <;> simp [keeps]

end Fragment

/-! ## Cutting a text into fragments -/

/-- The fragments are what a text is cut into from left to right. -/
inductive Cuts : List Fragment → Text → Prop where
  | nil : Cuts [] []
  | cons {f : Fragment} {fs : List Fragment} {rest : Text} : f.Fits rest → Cuts fs rest →
      Cuts (f :: fs) (f.text ++ rest)

theorem exists_cuts (t : Text) : ∃ fs, Cuts fs t := by
  induction h : t.length using Nat.strong_induction_on generalizing t with
  | h n ih =>
    by_cases hne : t = []
    · exact ⟨[], hne ▸ .nil⟩
    · obtain ⟨f, rest, rfl, hf⟩ := Fragment.exists_fits hne
      have hpos := List.length_pos_of_ne_nil hf.text_ne_nil
      rw [List.length_append] at h
      obtain ⟨fs, hfs⟩ := ih rest.length (by omega) rest rfl
      exact ⟨f :: fs, .cons hf hfs⟩

theorem Cuts.flatMap_text {fs : List Fragment} {t : Text} (h : Cuts fs t) :
    fs.flatMap Fragment.text = t := by
  induction h with
  | nil => rfl
  | cons _ _ ih => rw [List.flatMap_cons, ih]

theorem Cuts.eq_nil {fs : List Fragment} (h : Cuts fs []) : fs = [] := by
  generalize ht : ([] : Text) = t at h
  cases h with
  | nil => rfl
  | cons hf _ => exact absurd (List.append_eq_nil_iff.1 ht.symm).1 hf.text_ne_nil

/-- A text is cut in one way only. -/
theorem Cuts.unique {fs gs : List Fragment} {t : Text} (hf : Cuts fs t) (hg : Cuts gs t) :
    fs = gs := by
  induction hf generalizing gs with
  | nil => exact hg.eq_nil.symm
  | @cons f fs rest hf _ ih =>
    generalize ht : f.text ++ rest = t at hg
    cases hg with
    | nil => exact absurd (List.append_eq_nil_iff.1 ht).1 hf.text_ne_nil
    | cons hf' hg =>
      obtain ⟨rfl, rfl⟩ := hf.unique hf' ht
      rw [ih hg]

/-- The first pass keeps of a text what stays of its fragments. -/
theorem Cuts.keptFrom_eq {fs : List Fragment} {t : Text} (h : Cuts fs t) :
    keptFrom .code t = fs.flatMap Fragment.kept := by
  induction h with
  | nil => rfl
  | cons hf _ ih => rw [hf.keptFrom_eq, ih, List.flatMap_cons]

/-! ## Lines -/

theorem count_flatMap_kept (fs : List Fragment) :
    (fs.flatMap Fragment.kept).count '\n' = (fs.flatMap Fragment.text).count '\n' := by
  induction fs with
  | nil => rfl
  | cons f fs ih =>
    rw [List.flatMap_cons, List.flatMap_cons, List.count_append, List.count_append, ih, f.count_kept]

/-! ## No new comments -/

theorem StringEnds.change {s rest rest' : Text} (h : StringEnds s rest)
    (hrest : rest = [] → rest' = []) : StringEnds s rest' := by
  induction h with
  | closed => exact .closed
  | unclosed => exact hrest rfl ▸ .unclosed
  | cut => exact hrest rfl ▸ .cut
  | plain hquote hback _ ih => exact .plain hquote hback (ih hrest)
  | escape _ ih => exact .escape (ih hrest)

/-- Unless a slash comes first, the first character stays. -/
theorem Cuts.head?_kept {fs : List Fragment} {t : Text} (h : Cuts fs t) (hslash : t.head? ≠ some '/') :
    (fs.flatMap Fragment.kept).head? = t.head? := by
  cases h with
  | nil => rfl
  | @cons f fs rest hf _ =>
    rw [List.flatMap_cons]
    cases hf with
    | string _ => rw [Fragment.kept_eq_text (by simp)]; rfl
    | line _ => exact absurd rfl hslash
    | block _ => exact absurd rfl hslash
    | other _ _ => rw [Fragment.kept_eq_text (by simp)]; rfl

/-- What is kept before a fragment that is kept is still what it was. -/
theorem Fragment.Fits.kept {f : Fragment} {fs : List Fragment} {rest : Text} (hf : f.Fits rest)
    (h : Cuts fs rest) (hkept : ∀ t, f ≠ .comment t) : f.Fits (fs.flatMap Fragment.kept) := by
  cases hf with
  | string hs =>
    refine .string (hs.change ?_)
    rintro rfl
    rw [h.eq_nil]
    rfl
  | line _ => exact absurd rfl (hkept _)
  | block _ => exact absurd rfl (hkept _)
  | other hquote hslash =>
    refine .other hquote (fun hc => ?_)
    rw [h.head?_kept (hslash hc).1]
    exact hslash hc

/-- What is kept of a text is kept altogether. -/
theorem Cuts.keptFrom_kept {fs : List Fragment} {t : Text} (h : Cuts fs t) :
    keptFrom .code (fs.flatMap Fragment.kept) = fs.flatMap Fragment.kept := by
  induction h with
  | nil => rfl
  | @cons f fs rest hf hfs ih =>
    rw [List.flatMap_cons]
    by_cases hcomment : ∃ t, f = .comment t
    · obtain ⟨t, rfl⟩ := hcomment
      have hlines : ∀ c ∈ t.filter (· = '\n'), c ≠ '"' ∧ c ≠ '/' := by
        intro c hc
        have hline : c = '\n' := by simpa using (List.mem_filter.1 hc).2
        rw [hline]
        decide
      rw [Fragment.kept_comment, keptFrom_append_of_scan (kept_of_forall hlines), ih]
    · have hkept : ∀ t, f ≠ .comment t := fun t ht => hcomment ⟨t, ht⟩
      have hfits := (hf.kept hfs hkept).keptFrom_eq
      rw [Fragment.kept_eq_text hkept] at hfits ⊢
      rw [hfits, ih]

/-- A text is cut in exactly one way, from left to right, into strings, comments and other characters,
and the first pass leaves of it the strings, the other characters and the line breaks in comments. So
before each character that stays there are as many line breaks as before it in the text, there are as
many in all, and a second pass finds no comments. -/
theorem stripComments_exact (t : Text) :
    (∃! fs, Cuts fs t) ∧
      ∀ fs, Cuts fs t →
        t = fs.flatMap Fragment.text ∧ stripComments t = fs.flatMap Fragment.kept ∧
        (∀ before f after u c v, fs = before ++ f :: after → f.text = u ++ c :: v →
          f.keeps c = true →
          stripComments t = (before.flatMap Fragment.kept ++ u.filter f.keeps) ++
              c :: (v.filter f.keeps ++ after.flatMap Fragment.kept) ∧
            (before.flatMap Fragment.kept ++ u.filter f.keeps).count '\n' =
              (before.flatMap Fragment.text ++ u).count '\n') ∧
        (stripComments t).count '\n' = t.count '\n' ∧
        stripComments (stripComments t) = stripComments t := by
  obtain ⟨fs, hfs⟩ := exists_cuts t
  refine ⟨⟨fs, hfs, fun gs hgs => hgs.unique hfs⟩, fun gs hgs => ?_⟩
  have hstrip : stripComments t = gs.flatMap Fragment.kept := by
    rw [stripComments_eq_keptFrom, hgs.keptFrom_eq]
  refine ⟨hgs.flatMap_text.symm, hstrip, ?_, ?_, ?_⟩
  · intro before f after u c v hsplit htext hkeeps
    have hline : f.keeps '\n' = true := by cases f <;> simp [Fragment.keeps]
    constructor
    · rw [hstrip, hsplit, List.flatMap_append, List.flatMap_cons, Fragment.kept, htext,
        List.filter_append, List.filter_cons_of_pos hkeeps]
      simp
    · rw [List.count_append, List.count_append, count_flatMap_kept, List.count_filter hline]
  · rw [hstrip, count_flatMap_kept, hgs.flatMap_text]
  · rw [hstrip, stripComments_eq_keptFrom, hgs.keptFrom_kept]

/-- A string with slashes, a comment that the slash of its opening does not close, and a character
before a last comment. -/
theorem stripComments_exact_mixed :
    let fs : List Fragment :=
      [.string "\"//\"".toList, .comment "/*/\n*/".toList, .other 'b', .comment "//c".toList]
    Cuts fs "\"//\"/*/\n*/b//c".toList ∧ Fragment.keeps (.other 'b') 'b' = true ∧
      stripComments "\"//\"/*/\n*/b//c".toList = "\"//\"\nb".toList ∧
      "\"//\"\n".toList.count '\n' = "\"//\"/*/\n*/".toList.count '\n' := by
  intro fs
  have hlast : Cuts [.comment "//c".toList] "//c".toList :=
    @Cuts.cons _ _ [] (.line (.unclosed (by decide))) .nil
  have hchar : Cuts [.other 'b', .comment "//c".toList] "b//c".toList :=
    @Cuts.cons (.other 'b') _ _ (.other (by decide) (by decide)) hlast
  have hblock : ¬ "*/".toList <:+: "/\n".toList := by decide
  have hcomment : Cuts [.comment "/*/\n*/".toList, .other 'b', .comment "//c".toList]
      "/*/\n*/b//c".toList := @Cuts.cons _ _ _ (.block (.closed hblock)) hchar
  have hslash : '/' ≠ '"' ∧ '/' ≠ '\\' := by decide
  have hcuts : Cuts fs "\"//\"/*/\n*/b//c".toList :=
    @Cuts.cons _ _ _ (.string (.plain hslash.1 hslash.2 (.plain hslash.1 hslash.2 .closed))) hcomment
  obtain ⟨-, hkept, hline, -⟩ := (stripComments_exact _).2 fs hcuts
  have hb := hline (fs.take 2) (.other 'b') (fs.drop 3) [] 'b' [] rfl rfl rfl
  exact ⟨hcuts, rfl, hkept, hb.2⟩

end Jsonc

end SourceClosure
