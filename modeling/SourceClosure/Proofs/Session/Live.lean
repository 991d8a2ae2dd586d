import SourceClosure.Proofs.Path.Below
import SourceClosure.Proofs.Session.Change
import SourceClosure.Proofs.Session.Import
import SourceClosure.Proofs.Store.Confined

/-!
# Live files

A script that is registered is opened as a model unless it is one of the packages'. Packages are
looked up in the directory that the setting for it leads to, however that is spelled; but files are
told to be theirs by comparing texts. The two agree as long as the setting is a project path, up to
slashes at its end, and does not lead to the project's root (`inPackages_iff`). Otherwise no file
counts as one of the packages', and all scripts are opened (`register_opens_iff`).
-/

namespace SourceClosure

/-! ## Texts that paths start with -/

/-- Slashes at the end of a path do not lead anywhere. -/
theorem Path.segments_trimEnd (t : Text) :
    segments (Text.trimEnd (· == '/') t) = segments t := by
  induction t using List.reverseRecOn with
  | nil => rfl
  | append_singleton t c ih =>
    unfold Text.trimEnd at ih ⊢
    by_cases hc : c = '/'
    · rw [List.reverse_append, List.reverse_singleton, List.singleton_append, List.dropWhile_cons,
        if_pos (by simp [hc]), ih, hc, segments_eq_walk, segments_eq_walk, walk_append_slash,
        walk_nil]
    · rw [List.reverse_append, List.reverse_singleton, List.singleton_append, List.dropWhile_cons,
        if_neg (by simp [hc]), List.reverse_cons, List.reverse_reverse]

/-- A project path starts with a text and a slash if it lies below that text, which is then a
project path itself. -/
theorem Path.slash_prefix_iff {d path : Text} (hpath : toProject path = path) :
    d ++ ['/'] <+: path ↔ d ≠ [] ∧ toProject d = d ∧ Below d path := by
  have hnames : ∀ x ∈ segments path, IsName x := fun _ => isName_of_mem_segments
  constructor
  · rintro ⟨rest, hrest⟩
    rw [List.append_assoc, List.singleton_append] at hrest
    have hne : segments path ≠ [] := by
      intro hnil
      rw [← hpath, toProject_eq, hnil] at hrest
      simp [ofSegments, List.intercalate] at hrest
    -- Both sides are split at their slashes: what the path has before the slash are names.
    have hsplit : Text.split '/' d ++ Text.split '/' rest = segments path := by
      rw [← Text.split_append_sep, hrest, ← hpath, toProject_eq, split_ofSegments hne hnames,
        ← toProject_eq, hpath]
    have hd : ∀ x ∈ Text.split '/' d, IsName x := fun x hx =>
      hnames x (hsplit ▸ List.mem_append_left _ hx)
    have hsegments : segments d = Text.split '/' d := by
      rw [← segments_ofSegments hd, ofSegments_split]
    refine ⟨?_, ?_, below_iff.2 ⟨_, Text.splitWhere_ne_nil (· == '/') rest, ?_⟩⟩
    · rintro rfl
      exact (hd [] List.mem_cons_self).ne_nil rfl
    · rw [toProject_eq, hsegments, ofSegments_split]
    · rw [hsegments]
      exact hsplit.symm
  · rintro ⟨hne, hd, hbelow⟩
    obtain ⟨names, hnames, hsegments⟩ := below_iff.1 hbelow
    have hparts : segments d ≠ [] := by
      intro hnil
      rw [toProject_eq, hnil] at hd
      exact hne hd.symm
    refine ⟨ofSegments names, ?_⟩
    rw [← hpath, toProject_eq path, hsegments, ofSegments_append _ hnames, folderOf,
      if_neg hparts, ← toProject_eq, hd]

namespace Project

variable {p : Project}

/-! ## The directory of the packages -/

/-- The setting for the directory of the packages is a project path other than the root, up to
slashes at its end. -/
def NamesPackages (p : Project) : Prop :=
  p.packageFolder ≠ [] ∧ Path.toProject p.settings.packageRoot = p.packageFolder

instance (p : Project) : Decidable p.NamesPackages :=
  inferInstanceAs (Decidable (_ ∧ _))

/-- A file counts as one of the packages' if it is at or below their directory and the setting names
that directory. -/
theorem inPackages_iff {path : Text} (hpath : Path.toProject path = path) (hne : path ≠ []) :
    p.inPackages path = true ↔ p.NamesPackages ∧
      (path = Path.toProject p.settings.packageRoot ∨
        Path.Below p.settings.packageRoot path) := by
  have hsegments : Path.segments p.packageFolder = Path.segments p.settings.packageRoot :=
    Path.segments_trimEnd _
  have hroot : Path.toProject p.packageFolder = Path.toProject p.settings.packageRoot :=
    Path.toProject_eq_toProject hsegments
  have hbelow : Path.Below p.packageFolder path ↔ Path.Below p.settings.packageRoot path := by
    rw [Path.Below, hsegments, Path.Below]
  rw [inPackages, Bool.or_eq_true, beq_iff_eq, List.isPrefixOf_iff_prefix,
    Path.slash_prefix_iff hpath, hroot, hbelow, NamesPackages]
  constructor
  · rintro (rfl | ⟨hfolder, hspelled, h⟩)
    · exact ⟨⟨hne, hroot.symm.trans hpath⟩, .inl (hpath.symm.trans hroot)⟩
    · exact ⟨⟨hfolder, hspelled⟩, .inr h⟩
  · rintro ⟨⟨hfolder, hspelled⟩, rfl | h⟩
    · exact .inl hspelled
    · exact .inr ⟨hfolder, hspelled, h⟩

end Project

namespace Session

/-! ## Main result -/

/-- A file that is newly registered is opened as a model if it is a script and, where the setting
names the directory of the packages, neither at that directory nor below it. That is the directory
in which packages are looked up, whatever the setting is. -/
theorem register_opens_iff {p : Project} {path content : Text} {s : Session}
    (hnew : (s.register p path content).1 = true) :
    let file := Path.toProject path
    let root := Path.toProject p.settings.packageRoot
    (∀ name, Path.IsName name → Path.Below root (Path.join p.settings.packageRoot name)) ∧
      (s.register p path content).2.engine.models = s.engine.models ++
        if Path.isScript file ∧ (p.NamesPackages → file ≠ root ∧ ¬ Path.Below root file) then
          [⟨Path.toUri file, content⟩]
        else [] := by
  intro file root
  refine ⟨fun name hname => Path.toProject_below_iff.2 (Path.below_join hname _), ?_⟩
  have hfresh : s.has file = false := by
    rw [← Bool.not_eq_true]
    intro hhas
    rw [register_of_has hhas] at hnew
    cases hnew
  have hlive : p.isLive file = true ↔
      Path.isScript file ∧ (p.NamesPackages → file ≠ root ∧ ¬ Path.Below root file) := by
    rw [Project.isLive, Bool.and_eq_true, Bool.not_eq_true']
    refine and_congr_right (fun hscript => ?_)
    have hne : file ≠ [] := by
      intro hnil
      rw [hnil] at hscript
      exact absurd hscript (by decide)
    rw [← Bool.not_eq_true, Project.inPackages_iff (Path.toProject_toProject path) hne,
      Path.toProject_below_iff, not_and, not_or]
  rw [register_of_not_has hfresh]
  by_cases h : p.isLive file = true
  · rw [if_pos (hlive.1 h)]
    dsimp only
    rw [if_pos h]
    rfl
  · rw [if_neg (fun hopen => h (hlive.2 hopen)), List.append_nil]
    dsimp only
    rw [if_neg h]
    rfl

/-- A project without files whose packages are in a directory of this setting. -/
def packagesIn (packageRoot : String) : Project :=
  (Tree.mk [] []).project (fun _ => []) { packageRoot := packageRoot.toList }

/-- A script in a directory whose name goes on where that of the packages ends is opened; one that
is below the packages is not. -/
theorem register_opens_beside_vendor :
    let p := packagesIn "vendor//"
    p.NamesPackages ∧
      (new.register p "./vendor-x/a.ts".toList []).1 = true ∧
      (new.register p "./vendor-x/a.ts".toList []).2.engine.models =
        [⟨"file:///vendor-x/a.ts".toList, []⟩] ∧
      (new.register p "vendor/x/a.ts".toList []).1 = true ∧
      (new.register p "vendor/x/a.ts".toList []).2.engine.models = [] := by
  intro p
  have hbeside : (new.register p "./vendor-x/a.ts".toList []).1 = true := by decide
  have hbelow : (new.register p "vendor/x/a.ts".toList []).1 = true := by decide
  refine ⟨by decide, hbeside, ?_, hbelow, ?_⟩
  · rw [(register_opens_iff hbeside).2]
    decide
  · rw [(register_opens_iff hbelow).2]
    decide

/-- If the setting starts with a dot, packages are found all the same, but a script below them is
opened. -/
theorem not_register_opens_iff_dotted :
    let p := packagesIn "./node_modules"
    let path := "node_modules/pkg/index.js".toList
    (new.register p path []).1 = true ∧ Path.toProject path = path ∧
      Path.join p.settings.packageRoot "pkg".toList = "node_modules/pkg".toList ∧
      Path.Below (Path.toProject p.settings.packageRoot) path ∧
      (new.register p path []).2.engine.models =
        [⟨"file:///node_modules/pkg/index.js".toList, []⟩] := by
  decide

end Session

end SourceClosure
