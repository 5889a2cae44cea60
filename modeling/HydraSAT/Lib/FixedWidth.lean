import Mathlib.Tactic.Linarith

/-!
# Fixed-width machine integers

`int32 x` is the value a 32-bit two's-complement register holds after storing the integer `x`.
Arithmetic of the program is integer arithmetic followed by `int32`; where no result leaves the
range, `int32` is the identity (`int32_of_range`), and in sums only the last wrap counts
(`int32_add`).
-/

namespace HydraSAT.Lib

/-- Wrap an integer into the range of a signed 32-bit register. -/
def int32 (x : ℤ) : ℤ := (x + 2147483648) % 4294967296 - 2147483648

/-- The largest signed 32-bit value. -/
def maxInt32 : ℤ := 2147483647

/-- `x` is a value of a signed 32-bit register. -/
def InInt32 (x : ℤ) : Prop := -2147483648 ≤ x ∧ x ≤ 2147483647

instance (x : ℤ) : Decidable (InInt32 x) := inferInstanceAs (Decidable (_ ∧ _))

theorem int32_inRange (x : ℤ) : InInt32 (int32 x) := by
  unfold InInt32 int32
  omega

theorem int32_of_range {x : ℤ} (h : InInt32 x) : int32 x = x := by
  unfold InInt32 at h
  unfold int32
  omega

@[simp] theorem int32_zero : int32 0 = 0 := by decide

/-- Only the last wrap of a sum counts. -/
@[simp] theorem int32_add (x y : ℤ) : int32 (int32 x + y) = int32 (x + y) := by
  unfold int32
  omega

/-- Negation leaves the range at the least value only. -/
theorem int32_neg {x : ℤ} (h : InInt32 x) (hmin : x ≠ -2147483648) : int32 (-x) = -x := by
  unfold InInt32 at h
  exact int32_of_range (by unfold InInt32; omega)

end HydraSAT.Lib
