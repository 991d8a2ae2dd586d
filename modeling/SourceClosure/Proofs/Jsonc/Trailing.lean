import SourceClosure.Proofs.Jsonc.Fragments

/-!
# Trailing commas

A comma is trailing if it stands outside of strings and the next character that is not blank is a
closing bracket outside of strings, too. The second pass leaves out these commas and no others, and
all other characters stay in their order (`stripTrailingCommas_eq_filterMap`). What stands outside of
strings is said without the pass (`Outside`), and strings end where they end for the first pass.
-/

namespace SourceClosure

namespace Jsonc

/-! ## Outside of strings -/

/-- The text ends outside of strings: it consists of closed strings and of other characters. -/
inductive Outside : Text → Prop where
  | nil : Outside []
  /-- A string that is over at its end, whatever stands behind it. -/
  | string {s t : Text} : (∀ rest, StringEnds s rest) → Outside t → Outside ('"' :: (s ++ t))
  | char {c : Char} {t : Text} : c ≠ '"' → Outside t → Outside (c :: t)

theorem Outside.append {s t : Text} (hs : Outside s) (ht : Outside t) : Outside (s ++ t) := by
  induction hs with
  | nil => exact ht
  | string hbody _ ih =>
    rw [List.cons_append, List.append_assoc]
    exact .string hbody ih
  | char hc _ ih => exact .char hc ih

theorem outside_of_forall {t : Text} (h : ∀ c ∈ t, c ≠ '"') : Outside t := by
  induction t with
  | nil => exact .nil
  | cons c t ih =>
    obtain ⟨hc, ht⟩ := List.forall_mem_cons.1 h
    exact .char hc (ih ht)

theorem Outside.concat {t : Text} (h : Outside t) {c : Char} (hc : c ≠ '"') : Outside (t ++ [c]) :=
  h.append (.char hc .nil)

/-- A part of a string behind its opening quotation mark: what ends a string still does so behind
it. -/
def Inner (body : Text) : Prop :=
  ∀ s rest, StringEnds s rest → StringEnds (body ++ s) rest

theorem inner_nil : Inner [] :=
  fun _ _ hs => hs

theorem Inner.concat {body : Text} (h : Inner body) {c : Char} (hquote : c ≠ '"')
    (hback : c ≠ '\\') : Inner (body ++ [c]) := by
  intro s rest hs
  rw [List.append_assoc]
  exact h _ _ (.plain hquote hback hs)

theorem Inner.concat_escape {body : Text} (h : Inner body) (c : Char) :
    Inner (body ++ ['\\', c]) := by
  intro s rest hs
  rw [List.append_assoc]
  exact h _ _ (.escape hs)

/-- A quotation mark closes a string. -/
theorem Inner.outside {before body : Text} (h : Inner body) (hbefore : Outside before) :
    Outside (before ++ '"' :: (body ++ ['"'])) := by
  have hstring : Outside ('"' :: ((body ++ ['"']) ++ [])) :=
    .string (fun rest => h _ rest .closed) .nil
  rw [List.append_nil] at hstring
  exact hbefore.append hstring

/-! ## The spot after a text -/

/-- The spot that the second pass reaches. -/
def spotAfter (spot : Spot) (t : Text) : Spot :=
  t.foldl (fun spot c => (spot.step c).1) spot

theorem spotAfter_cons (spot : Spot) (c : Char) (t : Text) :
    spotAfter spot (c :: t) = spotAfter (spot.step c).1 t := rfl

theorem spotAfter_append (spot : Spot) (s t : Text) :
    spotAfter spot (s ++ t) = spotAfter (spotAfter spot s) t :=
  List.foldl_append

/-- The spot without what is held back. -/
def Spot.released : Spot → Spot
  | .comma _ => .code
  | spot => spot

theorem eq_string_of_released {spot : Spot} (h : spot.released = .string) : spot = .string := by
  cases spot with
  | comma blanks => cases h
  | _ => exact h

/-- Outside of strings only a quotation mark starts one. -/
theorem released_step {spot : Spot} (h : spot.released = .code) (c : Char) :
    (spot.step c).1.released = if c = '"' then .string else .code := by
  cases spot with
  | code =>
    by_cases hcomma : c = ','
    · rw [hcomma]
      rfl
    · rw [step_code hcomma]
      split <;> rfl
  | comma blanks =>
    rcases step_comma_cases blanks c with
      ⟨rfl, hstep⟩ | ⟨hclosing, hstep⟩ | ⟨hblank, hstep⟩ | ⟨-, hstep⟩
    · rfl
    · have hquote : c ≠ '"' := by rcases hclosing with rfl | rfl <;> decide
      rw [hstep, if_neg hquote]
      rfl
    · rw [hstep, if_neg (ne_of_isBlank hblank).2.1]
      rfl
    · rw [hstep]
      split <;> rfl
  | string => cases h
  | escape => cases h

/-- What a text is that leads to a spot, apart from what is held back there. -/
def Reaches : Spot → Text → Prop
  | .string, t => ∃ before body, t = before ++ '"' :: body ∧ Outside before ∧ Inner body
  | .escape, t =>
    ∃ before body, t = before ++ '"' :: (body ++ ['\\']) ∧ Outside before ∧ Inner body
  | _, t => Outside t

theorem Reaches.concat {spot : Spot} {t : Text} (h : Reaches spot.released t) (c : Char) :
    Reaches (spot.step c).1.released (t ++ [c]) := by
  have houtside (hcode : spot.released = .code) :
      Reaches (spot.step c).1.released (t ++ [c]) := by
    rw [hcode] at h
    rw [released_step hcode]
    by_cases hquote : c = '"'
    · rw [if_pos hquote, hquote]
      exact ⟨t, [], rfl, h, inner_nil⟩
    · rw [if_neg hquote]
      exact Outside.concat h hquote
  cases spot with
  | code => exact houtside rfl
  | comma blanks => exact houtside rfl
  | string =>
    obtain ⟨before, body, rfl, hbefore, hbody⟩ := h
    rw [List.append_assoc, List.cons_append, Spot.step]
    by_cases hback : c = '\\'
    · rw [if_pos hback, hback]
      exact ⟨before, body, rfl, hbefore, hbody⟩
    by_cases hquote : c = '"'
    · rw [if_neg hback, if_pos hquote, hquote]
      exact hbody.outside hbefore
    · rw [if_neg hback, if_neg hquote]
      exact ⟨before, body ++ [c], rfl, hbefore, hbody.concat hquote hback⟩
  | escape =>
    obtain ⟨before, body, rfl, hbefore, hbody⟩ := h
    exact ⟨before, body ++ ['\\', c], by simp, hbefore, hbody.concat_escape c⟩

/-- Every text ends outside of strings or in an open one, as the spot after it says. -/
theorem reaches_spotAfter (t : Text) : Reaches (spotAfter .code t).released t := by
  induction t using List.reverseRecOn with
  | nil => exact .nil
  | append_singleton t c ih =>
    rw [spotAfter_append]
    exact ih.concat c

theorem StringEnds.spotAfter_eq {s rest : Text} (h : StringEnds s rest) (hrest : rest ≠ []) :
    spotAfter .string s = .code := by
  induction h with
  | closed => rfl
  | unclosed => exact absurd rfl hrest
  | cut => exact absurd rfl hrest
  | plain hquote hback _ ih =>
    rw [spotAfter_cons, Spot.step, if_neg hback, if_neg hquote]
    exact ih hrest
  | escape _ ih => exact ih hrest

theorem Outside.released_spotAfter {t : Text} (h : Outside t) {spot : Spot}
    (hspot : spot.released = .code) : (spotAfter spot t).released = .code := by
  induction h generalizing spot with
  | nil => exact hspot
  | @string s t hs _ ih =>
    have hquote : (spot.step '"').1 = .string :=
      eq_string_of_released ((released_step hspot '"').trans (if_pos rfl))
    rw [spotAfter_cons, hquote, spotAfter_append, (hs [',']).spotAfter_eq (by simp)]
    exact ih rfl
  | char hc _ ih =>
    rw [spotAfter_cons]
    exact ih ((released_step hspot _).trans (if_neg hc))

/-- The second pass knows when it is outside of strings. -/
theorem outside_iff {t : Text} : Outside t ↔ (spotAfter .code t).released = .code := by
  refine ⟨fun h => h.released_spotAfter rfl, fun h => ?_⟩
  have hreaches := reaches_spotAfter t
  rw [h] at hreaches
  exact hreaches

instance decidableOutside : DecidablePred Outside :=
  fun _ => decidable_of_iff' _ outside_iff

/-! ## What is left out -/

/-- The comma between the two texts is trailing: it stands outside of strings, and the next character
that is not blank is a closing bracket outside of strings. -/
def IsTrailing (before after : Text) : Prop :=
  Outside before ∧ ∃ blanks b rest, after = blanks ++ b :: rest ∧
    (∀ c ∈ blanks, Text.isBlank c = true) ∧ (b = '\x7d' ∨ b = ']') ∧
    Outside (before ++ ',' :: blanks)

/-- A bracket that comes next behind a comma outside of strings is outside of strings. -/
theorem isTrailing_iff {before after : Text} :
    IsTrailing before after ↔ Outside before ∧ Closes after := by
  constructor
  · rintro ⟨hbefore, blanks, b, rest, rfl, hblanks, hb, -⟩
    exact ⟨hbefore, blanks, b, rest, rfl, hblanks, hb⟩
  · rintro ⟨hbefore, blanks, b, rest, rfl, hblanks, hb⟩
    refine ⟨hbefore, blanks, b, rest, rfl, hblanks, hb, hbefore.append (.char (by decide) ?_)⟩
    exact outside_of_forall (fun c hc => (ne_of_isBlank (hblanks c hc)).2.1)

instance decidableIsTrailing (before after : Text) : Decidable (IsTrailing before after) :=
  decidable_of_iff' _ isTrailing_iff

/-- The character at a place of the text, unless it is a trailing comma. -/
def remaining? (t : Text) (i : Nat) : Option Char :=
  if t[i]? = some ',' ∧ IsTrailing (t.take i) (t.drop (i + 1)) then none else t[i]?

theorem remaining?_append (before : Text) (c : Char) (t : Text) :
    remaining? (before ++ c :: t) before.length =
      if c = ',' ∧ Outside before ∧ Closes t then none else some c := by
  simp [remaining?, isTrailing_iff]

/-- One step: outside of strings a comma before a closing bracket is left out, and any other
character is put out. -/
theorem putFrom_released (spot : Spot) (c : Char) (t : Text) :
    putFrom spot.released (c :: t) =
      (if c = ',' ∧ spot.released = .code ∧ Closes t then [] else [c]) ++
        putFrom (spot.step c).1.released t := by
  have houtside (h : spot.released = .code) : putFrom .code (c :: t) =
      (if c = ',' ∧ Closes t then [] else [c]) ++ putFrom (spot.step c).1.released t := by
    rw [released_step h]
    by_cases hcomma : c = ','
    · subst hcomma
      rw [putFrom_code_comma]
      simp
    · rw [putFrom_code_cons hcomma]
      simp [hcomma]
  have hinside (h : spot.released ≠ .code) :
      (if c = ',' ∧ spot.released = .code ∧ Closes t then [] else [c]) = [c] :=
    if_neg (fun hall => h hall.2.1)
  cases spot with
  | code => simpa [Spot.released] using houtside rfl
  | comma blanks => simpa [Spot.released] using houtside rfl
  | string =>
    have hnext : (Spot.string.step c).1.released = (Spot.string.step c).1 := by
      rw [Spot.step]
      split
      · rfl
      · split <;> rfl
    rw [hinside (by decide), hnext]
    rfl
  | escape =>
    rw [hinside (by decide)]
    rfl

/-- From each place on, the second pass puts out the remaining characters. -/
theorem putFrom_eq_filterMap (before t : Text) :
    putFrom (spotAfter .code before).released t =
      (List.range' before.length t.length).filterMap (remaining? (before ++ t)) := by
  induction t generalizing before with
  | nil =>
    generalize spotAfter .code before = spot
    cases spot <;> rfl
  | cons c t ih =>
    have hnext := ih (before ++ [c])
    rw [spotAfter_append, List.length_append, List.append_assoc] at hnext
    have hput : putFrom ((spotAfter .code before).step c).1.released t =
        (List.range' (before.length + 1) t.length).filterMap (remaining? (before ++ c :: t)) := hnext
    rw [putFrom_released, hput, List.length_cons, List.range'_succ, List.filterMap_cons,
      remaining?_append]
    simp only [← outside_iff]
    split <;> rfl

/-- The trailing commas are left out, and nothing else. -/
theorem stripTrailingCommas_eq_filterMap (t : Text) :
    stripTrailingCommas t = (List.range t.length).filterMap (remaining? t) := by
  rw [stripTrailingCommas_eq_putFrom, List.range_eq_range']
  exact putFrom_eq_filterMap [] t

end Jsonc

end SourceClosure
