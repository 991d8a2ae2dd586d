import Mathlib.Data.List.Nodup
import SourceClosure.Text.Basic

/-!
# Lists without repetitions

Dropping repetitions keeps every text of a list, once and in the order of the first occurrences.
-/

namespace SourceClosure

namespace Text

theorem distinct_eq_eraseDups (ts : List Text) : distinct ts = ts.eraseDups := by
  have hfold (us seen : List Text) :
      (us.foldl (fun seen u => if seen.contains u then seen else u :: seen) seen).reverse =
        List.eraseDupsBy.loop (· == ·) us seen := by
    induction us generalizing seen with
    | nil => rfl
    | cons u us ih =>
      rw [List.foldl_cons, List.eraseDupsBy.loop, ih, List.contains_eq_any_beq]
      cases seen.any (u == ·) <;> rfl
  exact hfold ts []

theorem mem_distinct {ts : List Text} {t : Text} : t ∈ distinct ts ↔ t ∈ ts := by
  rw [distinct_eq_eraseDups, List.mem_eraseDups]

theorem nodup_distinct (ts : List Text) : (distinct ts).Nodup := by
  have hfold (us seen : List Text) (hseen : seen.Nodup) :
      (us.foldl (fun seen u => if seen.contains u then seen else u :: seen) seen).Nodup := by
    induction us generalizing seen with
    | nil => exact hseen
    | cons u us ih =>
      rw [List.foldl_cons]
      split
      · exact ih seen hseen
      · next hu => exact ih (u :: seen) (List.nodup_cons.2 ⟨by simpa using hu, hseen⟩)
  exact List.nodup_reverse.2 (hfold ts [] List.nodup_nil)

theorem distinct_cons (t : Text) (ts : List Text) :
    distinct (t :: ts) = t :: distinct (ts.filter (· != t)) := by
  rw [distinct_eq_eraseDups, distinct_eq_eraseDups, List.eraseDups_cons]
  rfl

theorem distinct_of_nodup {ts : List Text} (h : ts.Nodup) : distinct ts = ts := by
  induction ts with
  | nil => rfl
  | cons t ts ih =>
    obtain ⟨ht, hts⟩ := List.nodup_cons.1 h
    have hfilter : ts.filter (· != t) = ts := by
      refine List.filter_eq_self.2 (fun u hu => ?_)
      simp only [bne_iff_ne, ne_eq]
      rintro rfl
      exact ht hu
    rw [distinct_cons, hfilter, ih hts]

/-- The first text of a kind is still the first when repetitions are dropped. -/
theorem find?_distinct (q : Text → Bool) (ts : List Text) :
    (distinct ts).find? q = ts.find? q := by
  have hfold (us seen : List Text) :
      (us.foldl (fun seen u => if seen.contains u then seen else u :: seen) seen).reverse.find? q =
        (seen.reverse ++ us).find? q := by
    induction us generalizing seen with
    | nil => simp
    | cons u us ih =>
      rw [List.foldl_cons, ih]
      split
      · next hmem =>
        have hu : u ∈ seen := by simpa using hmem
        rw [List.find?_append, List.find?_append, List.find?_cons]
        cases hq : q u with
        | false => rfl
        | true =>
          -- An earlier occurrence of `u` is found first in both lists.
          have hsome : (seen.reverse.find? q).isSome := by
            rw [List.find?_isSome]
            exact ⟨u, by simpa using hu, hq⟩
          obtain ⟨v, hv⟩ := Option.isSome_iff_exists.1 hsome
          rw [hv]
          rfl
      · simp
  simpa [distinct] using hfold ts []

end Text

end SourceClosure
