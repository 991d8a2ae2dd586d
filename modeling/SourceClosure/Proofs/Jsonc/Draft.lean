import SourceClosure.Proofs.Jsonc.Trailing

/-!
# Trailing commas taken back

The second pass holds back a comma until it is clear whether a closing bracket comes next. It can as
well put out every character at once, remember the byte at which a comma was put out, and take the
comma back later. Taking back fails where no character starts at the remembered byte. There always is
a comma, so it never fails, and both ways put out the text without its trailing commas
(`stripTrailingCommas_exact`).
-/

namespace SourceClosure

namespace Text

/-! ## Bytes -/

theorem byteLength_cons (c : Char) (t : Text) :
    byteLength (c :: t) = c.utf8Size + byteLength t := by
  have hfold (n : Nat) (t : Text) :
      t.foldl (fun n c => n + c.utf8Size) n = n + byteLength t := by
    induction t generalizing n with
    | nil => rfl
    | cons c t ih =>
      rw [byteLength, List.foldl_cons, List.foldl_cons, ih, ih (0 + c.utf8Size)]
      omega
  rw [byteLength, List.foldl_cons, hfold, Nat.zero_add]

/-- The character starts at the byte of the text. -/
def StartsAt (t : Text) (n : Nat) (c : Char) : Prop :=
  ∃ before after, t = before ++ c :: after ∧ byteLength before = n

/-- The text without the character that starts at a byte, if one does. -/
def removeAt? : Text → Nat → Option Text
  | [], _ => none
  | c :: t, n =>
    if n = 0 then some t
    else if c.utf8Size ≤ n then (removeAt? t (n - c.utf8Size)).map (c :: ·)
    else none

/-- Exactly the character that starts at the byte can be taken out. -/
theorem removeAt?_eq_some_iff {t s : Text} {n : Nat} :
    removeAt? t n = some s ↔
      ∃ before c after, t = before ++ c :: after ∧ byteLength before = n ∧ s = before ++ after := by
  constructor
  · intro h
    induction t generalizing n s with
    | nil => cases h
    | cons d t ih =>
      rw [removeAt?] at h
      split at h
      · next hzero =>
        cases h
        exact ⟨[], d, t, rfl, hzero.symm, rfl⟩
      split at h
      · next hsize =>
        obtain ⟨u, hu, rfl⟩ := Option.map_eq_some_iff.1 h
        obtain ⟨before, c, after, rfl, hn, rfl⟩ := ih hu
        refine ⟨d :: before, c, after, rfl, ?_, rfl⟩
        rw [byteLength_cons]
        omega
      · cases h
  · rintro ⟨before, c, after, rfl, rfl, rfl⟩
    induction before with
    | nil => rfl
    | cons d before ih =>
      have hpos := d.utf8Size_pos
      rw [byteLength_cons, List.cons_append, removeAt?, if_neg (by omega), if_pos (by omega),
        Nat.add_sub_cancel_left, ih]
      rfl

end Text

namespace Jsonc

/-! ## Commas put out at once -/

/-- What has been put out so far, and where the pass stands. -/
structure Draft where
  out : Text
  inString : Bool
  /-- Whether a backslash was just read in a string. -/
  escaped : Bool
  /-- The byte at which a comma was put out that may turn out to be trailing. -/
  comma : Option Nat
  deriving DecidableEq, Repr

namespace Draft

def empty : Draft := ⟨[], false, false, none⟩

def push (d : Draft) (c : Char) : Draft :=
  { d with out := d.out ++ [c] }

/-- What a character does; there is no answer if the comma cannot be taken back. -/
def step (d : Draft) (c : Char) : Option Draft :=
  if d.inString then
    if d.escaped then some { d.push c with escaped := false }
    else if c = '\\' then some { d.push c with escaped := true }
    else if c = '"' then some { d.push c with inString := false }
    else some (d.push c)
  else if c = ',' then some { d.push c with comma := some (Text.byteLength d.out) }
  else if c = '\x7d' ∨ c = ']' then
    match d.comma with
    | none => some (d.push c)
    | some n => (Text.removeAt? d.out n).map fun out => { d with out := out ++ [c], comma := none }
  else if Text.isBlank c then some (d.push c)
  else if c = '"' then some { d.push c with inString := true, comma := none }
  else some { d.push c with comma := none }

/-- The draft after the text. -/
def run (t : Text) : Option Draft :=
  t.foldlM step empty

/-- The draft at a spot, with what was put out before the spot, last character first. A comma that is
held back there is put out in the draft. -/
def of : Spot → Text → Draft
  | .code, out => ⟨out.reverse, false, false, none⟩
  | .comma blanks, out =>
    ⟨out.reverse ++ ',' :: blanks.reverse, false, false, some (Text.byteLength out.reverse)⟩
  | .string, out => ⟨out.reverse, true, false, none⟩
  | .escape, out => ⟨out.reverse, true, true, none⟩

theorem out_of (spot : Spot) (out : Text) : (of spot out).out = finish (spot, out) := by
  cases spot <;> simp [of, finish, Spot.held]

theorem startsAt_of {spot : Spot} {out : Text} {n : Nat} (h : (of spot out).comma = some n) :
    Text.StartsAt (of spot out).out n ',' := by
  cases spot with
  | comma blanks => exact ⟨out.reverse, blanks.reverse, rfl, Option.some.inj h⟩
  | _ => cases h

theorem step_of_code (out : Text) (c : Char) :
    (of .code out).step c = some (of (Spot.code.step c).1 ((Spot.code.step c).2 ++ out)) := by
  by_cases hcomma : c = ','
  · rw [hcomma]
    rfl
  rw [step_code hcomma]
  by_cases hquote : c = '"'
  · have hblank : Text.isBlank '"' = false := rfl
    simp [step, of, push, hquote, hblank]
  · simp [step, of, push, hcomma, hquote]

theorem step_of_comma (blanks out : Text) (c : Char) :
    (of (.comma blanks) out).step c =
      some (of ((Spot.comma blanks).step c).1 (((Spot.comma blanks).step c).2 ++ out)) := by
  rcases step_comma_cases blanks c with
    ⟨rfl, hstep⟩ | ⟨hclosing, hstep⟩ | ⟨hblank, hstep⟩ | ⟨⟨hcomma, hclosing, hblank⟩, hstep⟩
  · rw [hstep]
    simp [step, of, push]
  · have hcomma : c ≠ ',' := by rcases hclosing with rfl | rfl <;> decide
    -- The comma stands where the output ended before it.
    have htake : Text.removeAt? (out.reverse ++ ',' :: blanks.reverse)
        (Text.byteLength out.reverse) = some (out.reverse ++ blanks.reverse) :=
      Text.removeAt?_eq_some_iff.2 ⟨out.reverse, ',', blanks.reverse, rfl, rfl, rfl⟩
    rw [hstep]
    simp [step, of, hcomma, hclosing, htake]
  · obtain ⟨hcomma, -, hclosing⟩ := ne_of_isBlank hblank
    rw [hstep]
    simp [step, of, push, hcomma, hclosing, hblank]
  · rw [hstep]
    by_cases hquote : c = '"'
    · rw [hquote] at hblank
      simp [step, of, push, hquote, hblank]
    · simp [step, of, push, hcomma, hclosing, hblank, hquote]

/-- Each step leads to the draft at the next spot, so the comma can always be taken back. -/
theorem step_of (spot : Spot) (out : Text) (c : Char) :
    (of spot out).step c = some (of (spot.step c).1 ((spot.step c).2 ++ out)) := by
  cases spot with
  | code => exact step_of_code out c
  | comma blanks => exact step_of_comma blanks out c
  | string =>
    by_cases hback : c = '\\'
    · simp [step, of, push, Spot.step, hback]
    by_cases hquote : c = '"'
    · simp [step, of, push, Spot.step, hquote]
    · simp [step, of, push, Spot.step, hback, hquote]
  | escape => simp [step, of, push, Spot.step]

theorem foldlM_step_of (spot : Spot) (out t : Text) :
    t.foldlM step (of spot out) =
      some (of (scanCommas spot out t).1 (scanCommas spot out t).2) := by
  induction t generalizing spot out with
  | nil => rfl
  | cons c t ih =>
    rw [List.foldlM_cons, step_of, Option.bind_eq_bind, Option.bind_some, ih, scanCommas_cons]

theorem run_eq (t : Text) :
    run t = some (of (scanCommas .code [] t).1 (scanCommas .code [] t).2) :=
  foldlM_step_of .code [] t

end Draft

/-- The second pass leaves out exactly the trailing commas and keeps all other characters in their
order. If every character is put out at once, then behind any part of the text a comma starts at the
remembered byte, if there is one; so taking it back never fails, and the same text is put out. -/
theorem stripTrailingCommas_exact (t : Text) :
    stripTrailingCommas t = (List.range t.length).filterMap (remaining? t) ∧
      (∀ k, ∃ d, Draft.run (t.take k) = some d ∧
        ∀ n, d.comma = some n → Text.StartsAt d.out n ',') ∧
      (Draft.run t).map Draft.out = some (stripTrailingCommas t) := by
  refine ⟨stripTrailingCommas_eq_filterMap t, fun k => ?_, ?_⟩
  · exact ⟨_, Draft.run_eq _, fun n hn => Draft.startsAt_of hn⟩
  · rw [Draft.run_eq, Option.map_some, Draft.out_of]
    rfl

/-- A comma and a bracket in a string, and two commas before a bracket, behind a character of two
bytes: the second of them is remembered and taken back. -/
theorem stripTrailingCommas_exact_mixed :
    let t := "[\"é,]\",1,,\u00a0]".toList
    stripTrailingCommas t = "[\"é,]\",1,\u00a0]".toList ∧
      ∃ d, Draft.run (t.take 11) = some d ∧ d.comma = some 10 ∧ Text.StartsAt d.out 10 ',' := by
  intro t
  obtain ⟨hleft, hdraft, -⟩ := stripTrailingCommas_exact t
  obtain ⟨d, hd, hcomma⟩ := hdraft 11
  have hten : d.comma = some 10 := by
    have hrun : (Draft.run (t.take 11)).bind Draft.comma = some 10 := by decide
    rwa [hd] at hrun
  exact ⟨hleft.trans (by decide), d, hd, hten, hcomma 10 hten⟩

end Jsonc

end SourceClosure
