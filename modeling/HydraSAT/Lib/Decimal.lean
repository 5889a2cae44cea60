import Mathlib.Data.List.Basic
import Mathlib.Data.Int.Basic

/-!
# Decimal numerals

`decimal` reads a nonempty run of ASCII digits; `setString10` reads an integer with an optional
sign the way `big.Int.SetString` does in base 10, where the whole text must be the numeral.
-/

namespace HydraSAT.Lib

/-- An ASCII digit. -/
def isDigit (c : Char) : Bool := '0' ≤ c && c ≤ '9'

/-- Value of a nonempty run of ASCII digits. -/
def decimal (cs : List Char) : Option ℕ :=
  if cs ≠ [] ∧ cs.all isDigit then
    some (cs.foldl (fun n c => 10 * n + (c.toNat - '0'.toNat)) 0)
  else none

/-- `SetString(s, 10)`. -/
def setString10 (s : String) : Option ℤ :=
  match s.toList with
  | '-' :: cs => (decimal cs).map fun n => -(n : ℤ)
  | '+' :: cs => (decimal cs).map fun n => (n : ℤ)
  | cs => (decimal cs).map fun n => (n : ℤ)

theorem decimal_isSome {cs : List Char} : (decimal cs).isSome ↔ cs ≠ [] ∧ ∀ c ∈ cs, isDigit c = true := by
  unfold decimal
  split
  · rename_i h
    simpa using h
  · rename_i h
    simpa using h

/-- A run of digits carries no sign. -/
theorem setString10_of_digits {s : String} {n : ℕ} (h : decimal s.toList = some n) :
    setString10 s = some (n : ℤ) := by
  have hd : ∀ c ∈ s.toList, isDigit c = true := (decimal_isSome.mp (by rw [h]; rfl)).2
  unfold setString10
  split
  · rename_i cs heq
    exact absurd (hd '-' (by simp [heq])) (by decide)
  · rename_i cs heq
    exact absurd (hd '+' (by simp [heq])) (by decide)
  · rw [h]
    rfl

end HydraSAT.Lib
