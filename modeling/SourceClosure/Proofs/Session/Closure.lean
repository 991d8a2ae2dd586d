import SourceClosure.Specifier.Scan
import SourceClosure.Proofs.Session.Load

/-!
# The closure of an entry file

Loading an entry file is a depth-first search along imports that keeps one corpus as its visited
set and cuts chains that are too long. A file is searched when it is met first, with the room that
is left then: if that is at the end of a long chain, its imports are not followed, and they are not
followed later either when a shorter chain comes by. So what is loaded depends on the order of
specifiers, unless no chain is cut: then the corpus is the set of files that the entry reaches.
-/

namespace SourceClosure

/-! ## Chains -/

/-- A chain of so many links leads from the first text to the other. -/
inductive Chain (link : Text → Text → Prop) (first : Text) : Nat → Text → Prop where
  | start : Chain link first 0 first
  | step {k : Nat} {f g : Text} : Chain link first k f → link f g → Chain link first (k + 1) g

namespace Chain

variable {link link' : Text → Text → Prop} {first f : Text} {k : Nat}

theorem mono (hlink : ∀ f g, link f g → link' f g) (h : Chain link first k f) :
    Chain link' first k f := by
  induction h with
  | start => exact .start
  | step _ hstep ih => exact .step ih (hlink _ _ hstep)

theorem reflTransGen (h : Chain link first k f) : Relation.ReflTransGen link first f := by
  induction h with
  | start => exact .refl
  | step _ hstep ih => exact ih.tail hstep

end Chain

namespace Request

open Session

variable {p : Project}

/-! ## Followed files -/

/-- The second file is imported by the first, which was loaded with room for its imports on behalf
of a request. -/
def Follows (p : Project) (r : Request) (f g : Text) : Prop :=
  Followed p r.session.aliases (r.all p) f ∧ p.Imports r.session.aliases f g

/-- The imports of a file that was loaded with room for them are in the corpus. -/
theorem has_of_follows (hp : p.files.Lexical) {r : Request} (hs : FromFiles p r.session)
    (hstem : Path.toProject r.stem = r.stem) {f g : Text} (h : r.Follows p f g) :
    (r.result p).2.has g = true := by
  obtain ⟨⟨r', hr', -, hfile, hroom⟩, himports⟩ := h
  obtain ⟨hbefore, hafter⟩ := evolves_of_mem_all hr'
  refine hafter.has ?_
  refine has_of_imports hp (hs.evolves hp hbefore) (toProject_stem_of_mem_all hr' hstem) hroom
    hfile ?_
  rwa [hbefore.aliases]

/-- A file that is loaded ends a chain of followed files, which has as many links as the request
has less room. -/
theorem chain_of_file? (hp : p.files.Lexical) {r r' : Request}
    (hstem : Path.toProject r.stem = r.stem) (hr' : r' ∈ r.all p) {f₀ g : Text}
    (hf₀ : p.readable? r.stem = some f₀) (hg : r'.file? p = some g) :
    ∃ k, k + r'.room = r.room ∧ Chain (r.Follows p) f₀ k g := by
  rw [mem_all_iff] at hr'
  induction hr' generalizing g with
  | refl =>
    rw [readable?_of_file? hg, Option.some_inj] at hf₀
    subst hf₀
    exact ⟨0, Nat.zero_add _, .start⟩
  | @tail parent child hparent hmakes ih =>
    obtain ⟨f, hf⟩ := hmakes.exists_file
    obtain ⟨k, hk, hchain⟩ := ih hf
    have hroom := hmakes.room
    have hmem := mem_all_iff.2 hparent
    have hpos := room_pos_of_file? hg
    have haliases := (evolves_of_mem_all hmem).1.aliases
    have himports := hmakes.imports hp (toProject_stem_of_mem_all hmem hstem) hf hg
    rw [haliases] at himports
    exact ⟨k + 1, by omega, hchain.step ⟨⟨parent, hmem, haliases, hf, by omega⟩, himports⟩⟩

/-- A file that ends a chain of followed files is in the corpus. -/
theorem has_of_chain (hp : p.files.Lexical) {r : Request} (hs : FromFiles p r.session)
    (hstem : Path.toProject r.stem = r.stem) (hroom : 0 < r.room) {k : Nat} {f₀ g : Text}
    (hf₀ : p.readable? r.stem = some f₀) (h : Chain (r.Follows p) f₀ k g) :
    (r.result p).2.has g = true := by
  cases h with
  | start =>
    obtain ⟨room, stem, s⟩ := r
    obtain ⟨room, rfl⟩ : ∃ n, room = n + 1 := ⟨room - 1, by dsimp only at hroom; omega⟩
    exact has_of_readable? hp hs room hf₀
  | step _ hlink => exact has_of_follows hp hs hstem hlink

/-- Whatever is in the corpus after a request was loaded by it, if the corpus was empty before. -/
theorem exists_file_of_has_of_nil {r : Request} (hs : r.session.corpus = []) {g : Text}
    (h : (r.result p).2.has g = true) : ∃ r' ∈ r.all p, r'.file? p = some g := by
  rcases exists_file_of_has h with hold | hnew
  · rw [has_iff, hs] at hold
    obtain ⟨f, hf, -⟩ := hold
    cases hf
  · exact hnew

/-- From an empty corpus, a request loads exactly the files that end a chain of followed files. -/
theorem has_iff_chain (hp : p.files.Lexical) {r : Request} (hs : r.session.corpus = [])
    (hstem : Path.toProject r.stem = r.stem) {f₀ : Text} (hf₀ : p.readable? r.stem = some f₀)
    (g : Text) :
    (r.result p).2.has g = true ↔ ∃ k < r.room, Chain (r.Follows p) f₀ k g := by
  constructor
  · intro h
    obtain ⟨r', hr', hg⟩ := exists_file_of_has_of_nil hs h
    obtain ⟨k, hk, hchain⟩ := chain_of_file? hp hstem hr' hf₀ hg
    have hpos := room_pos_of_file? hg
    exact ⟨k, by omega, hchain⟩
  · rintro ⟨k, hk, hchain⟩
    exact has_of_chain hp (.of_corpus_nil hs) hstem (by omega) hf₀ hchain

/-- The files of a chain are followed unless one before the last ends a chain that takes up all
the room. -/
theorem chain_followed_of_chain (hp : p.files.Lexical) {r : Request} (hs : r.session.corpus = [])
    (hstem : Path.toProject r.stem = r.stem) {f₀ g : Text} (hf₀ : p.readable? r.stem = some f₀)
    {k : Nat} (hk : k < r.room)
    (h : Chain (fun f g => ¬ Chain (p.Imports r.session.aliases) f₀ (r.room - 1) f ∧
      p.Imports r.session.aliases f g) f₀ k g) :
    Chain (r.Follows p) f₀ k g := by
  induction h with
  | start => exact .start
  | @step k f g _ hlink ih =>
    have hchain := ih (by omega)
    refine hchain.step ⟨?_, hlink.2⟩
    have hhas := (has_iff_chain hp hs hstem hf₀ f).2 ⟨k, by omega, hchain⟩
    obtain ⟨r', hr', hf⟩ := exists_file_of_has_of_nil hs hhas
    refine ⟨r', hr', (evolves_of_mem_all hr').1.aliases, hf, ?_⟩
    obtain ⟨n, hn, hlong⟩ := chain_of_file? hp hstem hr' hf₀ hf
    -- Were there room for one file only, the chain of requests would take up all the room.
    have hpos := room_pos_of_file? hf
    have hne : r'.room ≠ 1 := by
      intro hone
      have hn' : n = r.room - 1 := by omega
      exact hlink.1 (hn' ▸ hlong.mono (fun _ _ hl => hl.2))
    omega

/-! ## Without cuts -/

/-- If no request is cut, more room makes no difference. -/
theorem loadWithin_add_of_not_cut {room : Nat} (hroom : 0 < room) {stem : Text} {s : Session}
    (hcut : ∀ r ∈ nested p ⟨room, stem, s⟩, (r.result p).1 ≠ .skipped .depthExceeded)
    (extra : Nat) : loadWithin p (room + extra) stem s = loadWithin p room stem s := by
  induction room generalizing stem s with
  | zero => omega
  | succ room ih =>
    rw [Nat.add_right_comm]
    apply loadWithin_congr
    intro call hcall
    have hmakes : Makes p ⟨room + 1, stem, s⟩ ⟨room, call.1, call.2⟩ := .call hcall
    by_cases hzero : room = 0
    · subst hzero
      exact absurd rfl (hcut _ (mem_nested_of_makes List.mem_cons_self hmakes))
    · apply ih (by omega)
      intro r hr
      apply hcut
      exact mem_nested_iff.2 ⟨_, hmakes, List.mem_cons_of_mem _ hr⟩

/-- If no request is cut, whatever loaded a file had room for its imports or did not need it. -/
theorem has_of_imports_of_not_cut (hp : p.files.Lexical) {r r' : Request}
    (hs : FromFiles p r.session) (hstem : Path.toProject r.stem = r.stem)
    (hcut : ∀ r' ∈ r.nested p, (r'.result p).1 ≠ .skipped .depthExceeded)
    (hr' : r' ∈ r.all p) {f g : Text} (hf : r'.file? p = some f)
    (h : p.Imports r.session.aliases f g) : (r.result p).2.has g = true := by
  have haliases := (evolves_of_mem_all hr').1.aliases
  by_cases hroom : 1 < r'.room
  · exact has_of_follows hp hs hstem ⟨⟨r', hr', haliases, hf, hroom⟩, h⟩
  · have hstem' := toProject_stem_of_mem_all hr' hstem
    rw [← haliases] at h
    -- A request for one file only would make requests without room, which are cut off.
    obtain ⟨made, hmakes⟩ := exists_makes_of_imports hp hstem' hf h
    have hpos := room_pos_of_file? hf
    have hmade : made.room = 0 := by
      have hr := hmakes.room
      omega
    refine absurd ?_ (hcut made (mem_nested_of_makes hr' hmakes))
    rw [result, hmade]
    rfl

/-- Without a cut, the corpus is what the file of the stem reaches. -/
theorem has_iff_reaches (hp : p.files.Lexical) {r : Request} (hs : r.session.corpus = [])
    (hstem : Path.toProject r.stem = r.stem)
    (hcut : ∀ r' ∈ r.nested p, (r'.result p).1 ≠ .skipped .depthExceeded) (g : Text) :
    (r.result p).2.has g = true ↔ 0 < r.room ∧ ∃ f₀, p.readable? r.stem = some f₀ ∧
      Relation.ReflTransGen (p.Imports r.session.aliases) f₀ g := by
  constructor
  · intro h
    obtain ⟨r', hr', hg⟩ := exists_file_of_has_of_nil hs h
    obtain ⟨f₀, hf₀⟩ := exists_readable?_of_file? hr' hg
    obtain ⟨k, hk, hchain⟩ := chain_of_file? hp hstem hr' hf₀ hg
    have hpos := room_pos_of_file? hg
    exact ⟨by omega, f₀, hf₀, (hchain.mono (fun _ _ hl => hl.2)).reflTransGen⟩
  · rintro ⟨hroom, f₀, hf₀, hreach⟩
    have hfiles : FromFiles p r.session := .of_corpus_nil hs
    induction hreach with
    | refl => exact has_of_chain hp hfiles hstem hroom hf₀ .start
    | tail _ himports ih =>
      obtain ⟨r', hr', hf⟩ := exists_file_of_has_of_nil hs ih
      exact has_of_imports_of_not_cut hp hfiles hstem hcut hr' hf himports

end Request

namespace Session

open Request

/-! ## Main results -/

/-- What loading a source leaves in an empty corpus, whatever the order of specifiers. First,
exactly the files that end a chain of imports, shorter than the bound on depth, each of whose files
before the last was loaded with room to follow its imports. Second, therefore, all the files that
end such a chain of imports of which no file before the last also ends a chain as long as the bound
allows. -/
theorem has_loadSource_iff_chain (t : Tree) (specifiersIn : Text → List Text)
    (settings : Settings) (entry : Text) (s : Session) (hs : s.corpus = []) (f₀ : Text)
    (hf₀ : (t.project specifiersIn settings).readable? (Path.toProject entry) = some f₀)
    (g : Text) :
    let p := t.project specifiersIn settings
    let imports := p.Imports s.aliases
    let followed := Followed p s.aliases ((ofSource p entry 0 s).all p)
    ((loadSource p entry 0 s).2.has g = true ↔
      ∃ k < settings.maxSourceDepth, Chain (fun f g => followed f ∧ imports f g) f₀ k g) ∧
    ∀ k < settings.maxSourceDepth,
      Chain (fun f g => ¬ Chain imports f₀ (settings.maxSourceDepth - 1) f ∧ imports f g) f₀ k g →
        (loadSource p entry 0 s).2.has g = true := by
  intro p imports followed
  have hp : p.files.Lexical := t.lexical_store
  have hstem : Path.toProject (ofSource p entry 0 s).stem = (ofSource p entry 0 s).stem :=
    Path.toProject_toProject entry
  have hiff := has_iff_chain hp hs hstem hf₀ g
  refine ⟨hiff, fun k hk hchain => hiff.2 ⟨k, hk, ?_⟩⟩
  exact chain_followed_of_chain hp hs hstem hf₀ hk hchain

/-- A file that is imported by two others, one of which imports the other. -/
def crossing : Tree :=
  .ofFiles [("a.ts".toList, "import './b'\nimport './c'".toList),
    ("b.ts".toList, "import './c'".toList), ("c.ts".toList, "import './d'".toList),
    ("d.ts".toList, [])]

set_option maxRecDepth 20000 in
theorem followed_chain_crossing :
    let p := crossing.project Specifier.extract { maxSourceDepth := 3 }
    new.corpus = [] ∧ p.readable? (Path.toProject "a".toList) = some "a.ts".toList ∧
      ∃ k < 3, Chain (fun f g =>
        Followed p new.aliases ((ofSource p "a".toList 0 new).all p) f ∧
          p.Imports new.aliases f g) "a.ts".toList k "c.ts".toList := by
  intro p
  have hf₀ : p.readable? (Path.toProject "a".toList) = some "a.ts".toList := by decide
  have hiff := has_loadSource_iff_chain crossing Specifier.extract { maxSourceDepth := 3 }
    "a".toList new rfl "a.ts".toList hf₀ "c.ts".toList
  exact ⟨rfl, hf₀, hiff.1.1 (by decide)⟩

set_option maxRecDepth 20000 in
/-- A file that ends a short chain of imports may be left out: `c.ts` is met first as the last file
of the chain through `b.ts`, so that it is not followed from `a.ts` either. -/
theorem not_has_of_chain_crossing :
    let p := crossing.project Specifier.extract { maxSourceDepth := 3 }
    new.corpus = [] ∧ p.readable? (Path.toProject "a".toList) = some "a.ts".toList ∧
      2 < p.settings.maxSourceDepth ∧
      Chain (p.Imports new.aliases) "a.ts".toList 2 "d.ts".toList ∧
      (loadSource p "a".toList 0 new).2.has "d.ts".toList = false := by
  intro p
  have hac : p.Imports new.aliases "a.ts".toList "c.ts".toList := by decide
  have hcd : p.Imports new.aliases "c.ts".toList "d.ts".toList := by decide
  refine ⟨rfl, by decide, by decide, ?_, by decide⟩
  exact (Chain.start.step hac).step hcd

/-- Loading a source without a request that is cut off leaves in an empty corpus exactly the
readable files that the file of the entry reaches by imports. A bound of no file at all cuts off
the entry itself. -/
theorem has_loadSource_iff_reaches (t : Tree) (specifiersIn : Text → List Text)
    (settings : Settings) (entry : Text) (s : Session) (hs : s.corpus = [])
    (hcut : ∀ r ∈ (ofSource (t.project specifiersIn settings) entry 0 s).nested
      (t.project specifiersIn settings),
      (r.result (t.project specifiersIn settings)).1 ≠ .skipped .depthExceeded)
    (g : Text) :
    let p := t.project specifiersIn settings
    (loadSource p entry 0 s).2.has g = true ↔
      0 < settings.maxSourceDepth ∧ ∃ f₀, p.readable? (Path.toProject entry) = some f₀ ∧
        Relation.ReflTransGen (p.Imports s.aliases) f₀ g :=
  has_iff_reaches (r := ofSource (t.project specifiersIn settings) entry 0 s) t.lexical_store hs
    (Path.toProject_toProject entry) hcut g

/-- Two files that import each other, and one that cannot be read. -/
def facing : Tree :=
  (Tree.ofFiles [("a.ts".toList, "import './x'\nimport './b'".toList),
    ("b.ts".toList, "import './a'\nimport './x'".toList), ("x.ts".toList, [])]).failOn
    "x.ts".toList

set_option maxRecDepth 20000 in
theorem reaches_facing :
    let p := facing.project Specifier.extract {}
    new.corpus = [] ∧
      (∀ r ∈ (ofSource p "a".toList 0 new).nested p,
        (r.result p).1 ≠ .skipped .depthExceeded) ∧
      p.readable? (Path.toProject "a".toList) = some "a.ts".toList ∧
      Relation.ReflTransGen (p.Imports new.aliases) "a.ts".toList "b.ts".toList := by
  intro p
  have hcut : ∀ r ∈ (ofSource p "a".toList 0 new).nested p,
      (r.result p).1 ≠ .skipped .depthExceeded := by decide
  have hiff := has_loadSource_iff_reaches facing Specifier.extract {} "a".toList new rfl hcut
    "b.ts".toList
  have hf₀ : p.readable? (Path.toProject "a".toList) = some "a.ts".toList := by decide
  obtain ⟨-, f₀, hf₀', hreach⟩ := hiff.1 (by decide)
  have heq : "a.ts".toList = f₀ := Option.some_inj.1 (hf₀.symm.trans hf₀')
  exact ⟨rfl, hcut, hf₀, heq ▸ hreach⟩

end Session

end SourceClosure
