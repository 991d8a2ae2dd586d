/-!
# Text

A text is the list of its characters. Paths, specifiers, patterns and file contents are all
texts; this module holds the cuts and tests on them that the rest of the library is built from.

Lengths that are shown to a reader count bytes of UTF-8 (`Text.byteLength`); cuts count
characters. Comparing texts character by character orders them exactly as their UTF-8 bytes
would be ordered, so `Text.before` is also the order of names in a listing.
-/

namespace SourceClosure

/-- A text, as the list of its characters. -/
abbrev Text := List Char

namespace Text

/-! ## Size and case -/

/-- The number of bytes of the text in UTF-8. -/
def byteLength (t : Text) : Nat :=
  t.foldl (fun n c => n + c.utf8Size) 0

/-- The text with the letters `A` to `Z` in lower case; all other characters stay. -/
def lower (t : Text) : Text :=
  t.map Char.toLower

/-- Whether `s` comes strictly before `t` in the order of their characters. -/
def before : Text → Text → Bool
  | [], [] => false
  | [], _ :: _ => true
  | _ :: _, [] => false
  | a :: s, b :: t => a < b || (a == b && before s t)

/-! ## Cutting at a character -/

/-- The pieces between the characters that satisfy `isSep`; a text without any is one piece. -/
def splitWhere (isSep : Char → Bool) (t : Text) : List Text :=
  t.foldr
    (fun c pieces =>
      if isSep c then [] :: pieces
      else match pieces with
        | [] => [[c]]
        | p :: ps => (c :: p) :: ps)
    [[]]

/-- The pieces between the occurrences of `sep`; a text without `sep` is one piece. -/
def split (sep : Char) (t : Text) : List Text :=
  splitWhere (· == sep) t

/-- What stands before and after the first occurrence of `sep`, if there is one. -/
def splitOnce (sep : Char) (t : Text) : Option (Text × Text) :=
  match t.dropWhile (· != sep) with
  | [] => none
  | _ :: rest => some (t.takeWhile (· != sep), rest)

/-- What stands before and after the first occurrence of a whole text, if there is one. -/
def splitOnceAt (sep : Text) : Text → Option (Text × Text)
  | [] => if sep = [] then some ([], []) else none
  | c :: t =>
    if sep.isPrefixOf (c :: t) then some ([], (c :: t).drop sep.length)
    else (splitOnceAt sep t).map (fun (head, tail) => (c :: head, tail))

/-- The part of the text up to its last `sep`, that `sep` included; empty if there is none. -/
def throughLast (sep : Char) (t : Text) : Text :=
  (t.reverse.dropWhile (· != sep)).reverse

/-! ## Cutting at the ends -/

/-- What follows `head` in the text, if the text starts with it. -/
def after? (head t : Text) : Option Text :=
  if head.isPrefixOf t then some (t.drop head.length) else none

theorem eq_append_of_after? {head t rest : Text} (h : after? head t = some rest) :
    t = head ++ rest := by
  unfold after? at h
  split at h
  · next hp =>
    obtain ⟨s, rfl⟩ := List.isPrefixOf_iff_prefix.1 hp
    cases h
    simp
  · cases h

/-- What precedes `tail` in the text, if the text ends with it. -/
def before? (tail t : Text) : Option Text :=
  if tail.isSuffixOf t then some (t.take (t.length - tail.length)) else none

/-- The text without the leading characters that satisfy `p`. -/
def trimStart (p : Char → Bool) (t : Text) : Text :=
  t.dropWhile p

/-- The text without the trailing characters that satisfy `p`. -/
def trimEnd (p : Char → Bool) (t : Text) : Text :=
  (t.reverse.dropWhile p).reverse

/-- The text without the characters at both ends that satisfy `p`. -/
def trim (p : Char → Bool) (t : Text) : Text :=
  trimEnd p (trimStart p t)

/-! ## Lists of texts -/

/-- The list without later repetitions of an element: first occurrences stay, in order. -/
def distinct (ts : List Text) : List Text :=
  (ts.foldl (fun seen t => if seen.contains t then seen else t :: seen) []).reverse

end Text

end SourceClosure
