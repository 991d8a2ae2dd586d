import SourceClosure.Alias.Table
import SourceClosure.Path.Basic

/-!
# Alias resolution

A pattern is a text with at most one asterisk. Without one it matches only itself; with one it
matches every text that starts with what stands before the asterisk and goes on, without
overlap, to end with what stands behind it, and the part between is captured. Patterns with
more asterisks match nothing.

The first entry of the table whose pattern matches a specifier gives the stems that the
specifier may stand for: the captured part takes the place of the first asterisk of each
target, and the result is joined onto the base path. Later entries are not consulted, even if
the targets of the first one lead nowhere.
-/

namespace SourceClosure

/-- The character of a pattern that matches any text, and that of a target that the matched text
replaces. -/
def wildcard : Char := '*'

/-! ## Patterns -/

/-- A pattern with its parts told apart. -/
inductive AliasPattern where
  /-- The pattern matches this text only. -/
  | exact (text : Text)
  /-- The pattern matches what starts and ends like this. -/
  | around (start finish : Text)
  deriving DecidableEq, Repr

namespace AliasPattern

/-- The pattern that a text spells, if it has at most one asterisk. -/
def ofText? (t : Text) : Option AliasPattern :=
  match Text.splitOnce wildcard t with
  | none => some (exact t)
  | some (start, finish) => if finish.contains wildcard then none else some (around start finish)

/-- The part of a matching specifier that the asterisk stands for. -/
def capture? (p : AliasPattern) (specifier : Text) : Option Text :=
  match p with
  | exact text => if specifier = text then some [] else none
  | around start finish => (Text.after? start specifier).bind (Text.before? finish)

end AliasPattern

/-- A target with the captured text in place of its first asterisk. -/
def fillTarget (captured target : Text) : Text :=
  match Text.splitOnce wildcard target with
  | none => target
  | some (start, finish) => start ++ captured ++ finish

/-! ## Resolver -/

/-- A rule of alias resolution: a pattern and its targets. -/
structure AliasRule where
  pattern : AliasPattern
  targets : List Text
  deriving DecidableEq, Repr

/-- The rules of an alias table, and the path that targets are relative to. -/
structure AliasResolver where
  base : Text
  rules : List AliasRule
  deriving DecidableEq, Repr

namespace AliasResolver

/-- The resolver without any rule. -/
def empty : AliasResolver := ⟨[], []⟩

/-- The resolver for a table; entries with several asterisks make no rule. -/
def ofTable (table : AliasTable) (base : Text) : AliasResolver :=
  ⟨base, table.entries.filterMap (fun e =>
    (AliasPattern.ofText? e.pattern).map (fun p => ⟨p, e.targets⟩))⟩

/-- Whether some pattern matches the specifier. -/
def covers (r : AliasResolver) (specifier : Text) : Bool :=
  r.rules.any (fun rule => (rule.pattern.capture? specifier).isSome)

/-- The stem that a target leads to, as a project path. -/
def substitute (r : AliasResolver) (captured target : Text) : Text :=
  Path.toProject (Path.stripHere (Path.combine r.base (fillTarget captured target)))

/-- The stems of the first rule that matches, in the order of its targets. -/
def candidates? (r : AliasResolver) (specifier : Text) : Option (List Text) :=
  r.rules.findSome? (fun rule =>
    (rule.pattern.capture? specifier).map (fun captured =>
      rule.targets.map (r.substitute captured)))

/-- The first stem of the first rule that matches. -/
def resolve? (r : AliasResolver) (specifier : Text) : Option Text :=
  (r.candidates? specifier).bind List.head?

end AliasResolver

end SourceClosure
