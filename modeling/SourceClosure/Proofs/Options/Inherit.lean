import SourceClosure.Options.Raw

/-!
# The laws of inheriting

Options with `RawOptions.inherit` are a band in which the first occurrence of an element counts:
inheriting is associative, the unset options are neutral, and options that were inherited from
before add nothing (`inherit_inherit_self`). `Covers o b` says that `b` adds nothing to `o`.
-/

namespace SourceClosure

namespace RawOptions

variable {o a b c : RawOptions}

theorem inherit_assoc (a b c : RawOptions) :
    (a.inherit b).inherit c = a.inherit (b.inherit c) := by
  simp [inherit, Option.or_assoc]

@[simp] theorem inherit_empty (o : RawOptions) : o.inherit {} = o := by
  simp [inherit]

@[simp] theorem empty_inherit (o : RawOptions) : RawOptions.inherit {} o = o := by
  simp [inherit]

/-- What was inherited from before adds nothing. -/
theorem inherit_inherit_self (a b : RawOptions) : a.inherit (b.inherit a) = a.inherit b := by
  have hor {α : Type} (x y : Option α) : x.or (y.or x) = x.or y := by
    cases x <;> cases y <;> rfl
  simp [inherit, hor]

/-- Inheriting from `b` adds nothing. -/
def Covers (o b : RawOptions) : Prop :=
  o.inherit b = o

theorem covers_empty (o : RawOptions) : o.Covers {} :=
  inherit_empty o

theorem covers_self (o : RawOptions) : o.Covers o := by
  simpa [Covers] using inherit_inherit_self o {}

theorem Covers.inherit (ha : o.Covers a) (hb : o.Covers b) : o.Covers (a.inherit b) := by
  rw [Covers, ← inherit_assoc, ha, hb]

/-- What adds nothing to options adds nothing to more options. -/
theorem Covers.mono (h : o.Covers b) (c : RawOptions) : (o.inherit c).Covers b := by
  have hcalc : (o.inherit c).inherit b = o.inherit (b.inherit (c.inherit b)) := by
    rw [inherit_assoc, ← inherit_assoc o b, h]
  rw [Covers, hcalc, inherit_inherit_self, ← inherit_assoc, h]

theorem Covers.inherit_left (h : o.Covers b) (c : RawOptions) : (c.inherit o).Covers b := by
  rw [Covers, inherit_assoc, h]

/-- What covers options with something inherited covers the options. -/
theorem Covers.of_inherit (h : o.Covers (a.inherit b)) : o.Covers a := by
  have hcalc : (o.inherit (a.inherit b)).inherit a = o.inherit (a.inherit b) := by
    rw [inherit_assoc, inherit_assoc, inherit_inherit_self]
  rw [Covers] at h ⊢
  rwa [h] at hcalc

end RawOptions

end SourceClosure
