import SourceClosure.Proofs.Session.Answers
import SourceClosure.Proofs.Session.Asking
import SourceClosure.Proofs.Session.Visited

/-!
# Runs that keep to project paths

A run that makes no stray paths puts project paths to its store and nothing else. Then it makes no
difference to the run whether the store refuses all other paths, as a disk does
(`Session.run_confined`). With a single stray path it may: a manifest that names its declarations by
a path from the root leads to the file in memory and nowhere on disk
(`Session.not_run_confined_declaring`).
-/

namespace SourceClosure

namespace Session

/-! ## Main result -/

/-- Let no listing hold a name that starts at the root of a file system, and let no path be stray,
or only such that are project paths after all. Then all paths that a run puts to the store are
project paths, of which a disk refuses none but those that start with a drive; and the run is the
same, operation by operation, on the store that fails on all other paths. -/
theorem run_confined {p : Project} (hnames : p.files.ListsNames) {operations : List Operation}
    (hstray : ∀ path, Stray p operations path → Path.toProject path = path) :
    (∀ a ∈ (run p new operations).accesses, Path.toProject a.path = a.path ∧
      ∀ d : Disk, d.resolve a.path = .error (.outsideRoot a.path) ↔
        Path.isRooted a.path = true) ∧
    transcript (p.on p.files.confined) new operations = transcript p new operations := by
  have hproject : ∀ a ∈ (run p new operations).accesses, Path.toProject a.path = a.path :=
    fun a ha => (run_asks hnames operations a ha).elim id (hstray a.path)
  refine ⟨fun a ha => ⟨hproject a ha, fun d => ?_⟩, transcript_congr fun a ha => ?_⟩
  · exact d.resolve_eq_outsideRoot_iff (hproject a ha)
  · exact p.files.sameAnswer_confined (hproject a ha)

/-! ## Two projects -/

/-- A file that imports another and a package, a package with a manifest, and a document that
extends one of a package. -/
def orderly : Tree :=
  .ofFiles [("tsconfig.json".toList, "\x7b\"extends\":\"preset\"\x7d".toList),
    ("node_modules/preset/tsconfig.json".toList, "\x7b\x7d".toList),
    ("node_modules/pkg/package.json".toList, "\x7b\"types\":\"./main.d.ts\"\x7d".toList),
    ("node_modules/pkg/main.d.ts".toList, []),
    ("src/a.ts".toList, "import './b'\nimport 'pkg'".toList),
    ("src/b.ts".toList, [])]

/-- The project of these files, with no packages that are loaded in advance. -/
def orderlyProject : Project :=
  orderly.project Specifier.extract { priorityPackages := [] }

theorem options_orderly {c : Config} (hc : orderlyProject.MayConfigure c) :
    c.options = .default := by
  have hloaded : (Config.load orderlyProject.files
      orderlyProject.settings.packageRoot).1.options = .default := by decide +kernel
  rcases hc with hc | hc <;> rw [hc]
  · rfl
  · exact hloaded

theorem mem_orderly_of_read {path content : Text}
    (hread : orderlyProject.files.read path = .ok content) :
    ⟨Path.toProject path, content⟩ ∈ orderly.files :=
  Tree.exists_file_of_read hread

theorem isPlain_orderly {stem : Text}
    (h : MayLoad orderlyProject [.start "src/a.ts".toList] stem) : Path.IsPlain stem := by
  have hentry : Path.IsPlain (Path.toProject "src/a.ts".toList) := by decide
  have himports : ∀ f ∈ orderly.files, ∀ specifier ∈ Specifier.extract f.content,
      ∀ stem ∈ Specifier.stems Config.default.aliases (Path.directory f.path) specifier,
        Path.IsPlain stem := by decide +kernel
  cases h with
  | entry hoperation hpath =>
    obtain rfl := List.mem_singleton.1 hoperation
    obtain rfl := Option.some.inj hpath
    exact hentry
  | specifier hname hread hspecifier hc hstem =>
    rw [← Specifier.stems_directory_toProject hname, hc.aliases, options_orderly hc] at hstem
    exact himports _ (mem_orderly_of_read hread) _ hspecifier _ hstem

theorem eq_of_mayNeed_orderly {name : Text}
    (h : MayNeed orderlyProject [.start "src/a.ts".toList] name) : name = "pkg".toList := by
  have hroots : ∀ root ∈ CompilerOptions.default.typeRoots,
      (orderly.list root).toOption = none := by decide +kernel
  have hexternal : ∀ f ∈ orderly.files, ∀ specifier ∈ Specifier.extract f.content,
      Specifier.kind Config.default.aliases specifier = .external →
        Specifier.packageName specifier = "pkg".toList := by decide +kernel
  cases h with
  | priority hname => exact absurd hname List.not_mem_nil
  | operation hoperation => exact absurd (List.mem_singleton.1 hoperation) (by simp)
  | stubs hc hroot hlist =>
    rw [options_orderly hc] at hroot
    have hnone := hroots _ hroot
    have hlist' : orderly.list _ = .ok _ := hlist
    rw [hlist'] at hnone
    cases hnone
  | specifier hread hspecifier hc hkind =>
    rw [hc.aliases, options_orderly hc] at hkind
    exact hexternal _ (mem_orderly_of_read hread) _ hspecifier hkind

theorem toProject_of_stray_orderly {path : Text}
    (h : Stray orderlyProject [.start "src/a.ts".toList] path) : Path.toProject path = path := by
  let paths := ["tsconfig.json".toList, "node_modules/preset/tsconfig.json".toList,
    "jsconfig.json".toList]
  cases h with
  | probed hoperation => exact absurd (List.mem_singleton.1 hoperation) (by simp)
  | candidate hstem hplain => exact absurd (isPlain_orderly hstem) hplain
  | base hstart hpath hread hname =>
    have hclosed : Config.IsClosed orderly.store "node_modules".toList paths := by decide +kernel
    have hstarts : ∀ start ∈ Config.documentNames, start ∈ paths := by decide
    have hbases : ∀ path ∈ paths, ∀ base ∈ Config.basesAt orderly.store "node_modules".toList path,
        Path.toProject base = base := by decide +kernel
    have hmem := hclosed.mem_of_leadsTo (hstarts _ hstart) hpath
    refine hbases _ hmem _ (Config.extends_iff.1 ⟨_, hread, ?_⟩)
    exact List.mem_map_of_mem (List.mem_reverse.2 hname)
  | stubs hpackage _ _ hroot =>
    rw [eq_of_mayNeed_orderly hpackage] at hroot
    exact absurd hroot (by decide)
  | package hpackage hfromRoot =>
    rw [eq_of_mayNeed_orderly hpackage] at hfromRoot
    have hinside : ¬ orderlyProject.FromRoot "pkg".toList := by decide +kernel
    exact absurd hfromRoot hinside

/-- On the way through these files no path is made that a disk would refuse. -/
theorem run_confined_orderly :
    orderlyProject.files.ListsNames ∧
    (∀ path, Stray orderlyProject [.start "src/a.ts".toList] path → Path.toProject path = path) ∧
    (∀ a ∈ (run orderlyProject new [.start "src/a.ts".toList]).accesses,
      Path.toProject a.path = a.path) ∧
    transcript (orderlyProject.on orderlyProject.files.confined) new [.start "src/a.ts".toList] =
      transcript orderlyProject new [.start "src/a.ts".toList] := by
  have hnames : orderlyProject.files.ListsNames :=
    Tree.listsNames_store (fun _ => Tree.toProject_of_mem_ofFiles)
  have hstray : ∀ path, Stray orderlyProject [.start "src/a.ts".toList] path →
      Path.toProject path = path := fun _ => toProject_of_stray_orderly
  obtain ⟨hproject, hsame⟩ := run_confined hnames hstray
  exact ⟨hnames, hstray, fun a ha => (hproject a ha).1, hsame⟩

/-- A package whose manifest names its declarations by a path from the root. -/
def declaring : Tree :=
  .ofFiles [("node_modules/pkg/package.json".toList,
      "\x7b\"types\":\"/types/pkg.d.ts\"\x7d".toList),
    ("types/pkg.d.ts".toList, [])]

/-- The same files on disk. -/
def declaringDisk : Disk where
  root := .folder [("node_modules".toList, .folder [("pkg".toList, .folder
      [("package.json".toList, .file (some "\x7b\"types\":\"/types/pkg.d.ts\"\x7d".toList))])]),
    ("types".toList, .folder [("pkg.d.ts".toList, .file (some []))])]

/-- The file that the manifest names is asked for by a path that is not a project path. In memory it
is found and registered; a store that refuses such paths, and a disk with the same files, do not
give it away. -/
theorem not_run_confined_declaring :
    let p := declaring.project Specifier.extract {}
    let answers (files : Store) :=
      (transcript (p.on files) new [.loadPackage "pkg".toList]).map Prod.fst
    .present "/types/pkg.d.ts".toList ∈ (run p new [.loadPackage "pkg".toList]).accesses ∧
    Path.toProject "/types/pkg.d.ts".toList ≠ "/types/pkg.d.ts".toList ∧
    answers p.files = [.package (.manifest 1)] ∧
    answers p.files.confined = [.package (.manifest 0)] ∧
    answers declaringDisk.store = [.package (.manifest 0)] := by
  decide +kernel

end Session

end SourceClosure
