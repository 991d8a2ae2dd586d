import SourceClosure.Path.Suffix

/-!
# Candidate files of a stem

A specifier names a stem, such as `src/util`, and several files may be meant by it. The
candidates of a stem are those files in order of preference: files that bear the stem's name
come before index files of a directory of that name. A stem that already carries a suffix is
tried as it stands first, then with its suffix taken off, so that `util.js` still leads to
`util.ts`; the index files of a directory named like the whole stem come last.
-/

namespace SourceClosure

namespace Path

/-- The suffixes that are put after a stem, in order of preference. -/
def probedSuffixes : List Suffix :=
  [.ts, .tsx, .dts, .js, .jsx]

/-- The file name without suffix that is looked for in a directory. -/
def indexName : Text := "index".toList

/-- The files named by the stem and a suffix. -/
def directForms (stem : Text) : List Text :=
  probedSuffixes.map (fun s => stem ++ s.text)

/-- The index files of the directory named by the stem. -/
def indexForms (stem : Text) : List Text :=
  directForms (stem ++ '/' :: indexName)

/-- The files that a stem may stand for, best first and without repetitions. The empty stem is
the project's root, which has index files only. -/
def candidates (stem : Text) : List Text :=
  let stem := Text.trimEnd (· == '/') stem
  if hasSuffix stem then
    let bare := withoutSuffix stem
    let forms := if bare = [] then [] else directForms bare ++ indexForms bare
    Text.distinct (stem :: forms ++ indexForms stem)
  else if stem = [] then directForms indexName
  else Text.distinct (directForms stem ++ indexForms stem)

end Path

end SourceClosure
