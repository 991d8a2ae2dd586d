import SourceClosure.Text.Basic

/-!
# Blank characters

The characters with the Unicode property White_Space: the ASCII blanks and line breaks, NEL,
the no-break space and the typographic spaces and separators. The zero width space and the
byte order mark are not among them.
-/

namespace SourceClosure

namespace Text

/-- Whether the character has the property White_Space. -/
def isBlank (c : Char) : Bool :=
  let n := c.toNat
  (0x9 ≤ n && n ≤ 0xD) || n == 0x20 || n == 0x85 || n == 0xA0 || n == 0x1680
    || (0x2000 ≤ n && n ≤ 0x200A) || n == 0x2028 || n == 0x2029 || n == 0x202F
    || n == 0x205F || n == 0x3000

/-- Every character that counts as white space in ASCII is blank. -/
theorem isBlank_of_isWhitespace {c : Char} (h : c.isWhitespace) : isBlank c := by
  simp only [Char.isWhitespace, Bool.or_eq_true, decide_eq_true_eq] at h
  rcases h with ((h | h) | h) | h <;> subst h <;> decide

/-- The text without blank characters at both ends. -/
def strip (t : Text) : Text :=
  trim isBlank t

end Text

end SourceClosure
