import SourceClosure.Proofs.Path.Ranking
import SourceClosure.Proofs.Session.Request

/-!
# Probing

A stem is looked up by asking for its candidates one after the other. The answer is the best of them
that is a file. A candidate that is missing or a directory never ends the search, and an index file is
taken only where no file bears the name of the stem (`probe_finds_best_ranked`).
-/

namespace SourceClosure

namespace Session

variable {p : Project}

theorem probe_eq_some_iff {stem c : Text} {s : Session} :
    (probe p stem s).1 = some c ↔
      p.files.isFile c = true ∧ ∃ better worse, Path.candidates stem = better ++ c :: worse ∧
        ∀ d ∈ better, p.files.isFile d = false := by
  rw [probe_fst, Project.probed?, List.find?_eq_some_iff_append]
  simp

theorem probe_eq_none_iff {stem : Text} {s : Session} :
    (probe p stem s).1 = none ↔ ∀ c ∈ Path.candidates stem, p.files.isFile c = false := by
  rw [probe_fst, Project.probed?, List.find?_eq_none]
  simp

/-- Before an index file is taken, all files that could bear the stem's name were asked for. -/
theorem not_isFile_of_isIndex {stem c d : Text} {s : Session}
    (h : (probe p stem s).1 = some c) (hc : Path.IsIndex (Text.trimEnd (· == '/') stem) c)
    (hd : Path.IsDirect (Text.trimEnd (· == '/') stem) d) : p.files.isFile d = false := by
  rw [probe_fst, Project.probed?, Path.candidates_eq, List.find?_append] at h
  cases hfound : (Path.directGroup (Text.trimEnd (· == '/') stem)).find? p.files.isFile with
  | none =>
    have hnone := List.find?_eq_none.1 hfound d (Path.mem_directGroup.2 hd)
    simpa using hnone
  | some e =>
    -- What is found first bears the stem's name, but what was found is an index file.
    have hdirect := Path.mem_directGroup.1 (List.mem_of_find?_eq_some hfound)
    have heq : e = c := by simpa [hfound] using h
    exact absurd heq (hdirect.ne_of_isIndex hc)

/-- Looking a stem up gives the first of its candidates that is a file, or nothing if none is. The
candidates are listed once, in the order of their ranks: files that bear the stem's name before index
files, and each of these in the order of their suffixes. So an index file is given only if no file bears
the stem's name. -/
theorem probe_finds_best_ranked (p : Project) (stem : Text) (s : Session) :
    (∀ c, (probe p stem s).1 = some c ↔
      p.files.isFile c = true ∧ ∃ better worse, Path.candidates stem = better ++ c :: worse ∧
        ∀ d ∈ better, p.files.isFile d = false) ∧
    ((probe p stem s).1 = none ↔ ∀ c ∈ Path.candidates stem, p.files.isFile c = false) ∧
    Path.Ranks (Text.trimEnd (· == '/') stem) (Path.candidates stem) ∧
    (∀ b, Path.directForms b = [".ts", ".tsx", ".d.ts", ".js", ".jsx"].map (b ++ ·.toList) ∧
      Path.indexForms b = ["/index.ts", "/index.tsx", "/index.d.ts", "/index.js",
        "/index.jsx"].map (b ++ ·.toList)) ∧
    ∀ c d, (probe p stem s).1 = some c → Path.IsIndex (Text.trimEnd (· == '/') stem) c →
      Path.IsDirect (Text.trimEnd (· == '/') stem) d → p.files.isFile d = false := by
  refine ⟨fun c => probe_eq_some_iff, probe_eq_none_iff, Path.ranks_candidates stem, ?_, ?_⟩
  · intro b
    constructor
    · rfl
    · calc
        Path.indexForms b
          = Path.probedSuffixes.map (fun s => b ++ ('/' :: Path.indexName ++ s.text)) :=
            List.map_congr_left (fun s _ => List.append_assoc b _ s.text)
        _ = _ := rfl
  · intro c d h hc hd
    exact not_isFile_of_isIndex h hc hd

/-- A directory of which the path ends like that of a file, and an index file. -/
def folders : Tree :=
  .ofFiles [("src/util.ts/own.ts".toList, []), ("src/util/index.ts".toList, [])]

theorem probe_finds_best_ranked_folders :
    let p := folders.project (fun _ => []) {}
    (probe p "src/util.js/".toList new).1 = some "src/util/index.ts".toList ∧
      p.files.present "src/util.ts".toList = true ∧ p.files.isFile "src/util.ts".toList = false := by
  have hfound : (probe (folders.project (fun _ => []) {}) "src/util.js/".toList new).1 =
      some "src/util/index.ts".toList := by decide +kernel
  have hindex : Path.IsIndex (Text.trimEnd (· == '/') "src/util.js/".toList)
      "src/util/index.ts".toList := .bare (by decide +kernel) (by decide +kernel)
  have hdirect : Path.IsDirect (Text.trimEnd (· == '/') "src/util.js/".toList)
      "src/util.ts".toList := .suffixed (by decide +kernel) (by decide +kernel)
  obtain ⟨-, -, -, -, hbest⟩ := probe_finds_best_ranked (folders.project (fun _ => []) {})
    "src/util.js/".toList new
  exact ⟨hfound, by decide +kernel, hbest _ _ hfound hindex hdirect⟩

end Session

end SourceClosure
