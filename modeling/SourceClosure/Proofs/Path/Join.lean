import SourceClosure.Proofs.Path.Plain

/-!
# Joined paths

Joining keeps a leading slash, so what comes of it is a project path unless one of its parts starts
at the root of a file system.
-/

namespace SourceClosure

namespace Path

/-- The path starts at the root of a file system. -/
def FromRoot (p : Text) : Prop :=
  (slashes p).head? = some '/'

instance (p : Text) : Decidable (FromRoot p) :=
  inferInstanceAs (Decidable (_ = _))

theorem not_fromRoot_of_toProject {p : Text} (hp : toProject p = p) : ¬ FromRoot p := by
  have hback : '\\' ∉ p := hp ▸ backslash_not_mem_toProject p
  rw [FromRoot, slashes_of_not_mem hback]
  exact hp ▸ head?_toProject p

/-- The normal form is a project path, unless the path starts at the root of a file system. -/
theorem toProject_normalize_iff {p : Text} :
    toProject (normalize p) = normalize p ↔ ¬ FromRoot p := by
  constructor
  · intro h hroot
    rw [FromRoot] at hroot
    have hhead : (normalize p).head? = some '/' := by rw [normalize, if_pos hroot]; rfl
    exact head?_toProject (normalize p) (h.symm ▸ hhead)
  · intro h
    rw [normalize_eq_toProject h, toProject_toProject]

theorem fromRoot_of_combine {base relative : Text} (h : FromRoot (combine base relative)) :
    FromRoot base ∨ FromRoot relative := by
  unfold combine at h
  split at h
  · exact .inr h
  · next hne =>
    obtain ⟨c, t, rfl⟩ := List.exists_cons_of_ne_nil (not_or.1 hne).1
    split at h <;> exact .inl h

/-- If neither part starts at the root of a file system, joining them makes a project path. -/
theorem toProject_join {base relative : Text} (hb : ¬ FromRoot base) (hr : ¬ FromRoot relative) :
    toProject (join base relative) = join base relative :=
  toProject_normalize_iff.2 (fun h => (fromRoot_of_combine h).elim hb hr)

end Path

end SourceClosure
