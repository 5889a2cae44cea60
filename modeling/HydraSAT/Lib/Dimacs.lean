import Mathlib.Data.List.Count
import Mathlib.Data.Int.Basic
import Mathlib.Tactic.Linarith

/-!
# DIMACS literals, cubes and formulas

A literal is a nonzero integer: `v` asserts variable `v`, `-v` denies it.  An assignment gives
every variable a truth value; a cube is the conjunction and a clause the disjunction of its
literals.

* `hits a cubes`: how many of the cubes the assignment `a` satisfies.  A family of cubes partitions
  a set of assignments when `hits` is one on it;
* `hits_split`: replacing a cube by its extensions with `l` and with `-l` keeps every count.
-/

namespace HydraSAT.Lib

/-- A total truth assignment, by variable index. -/
abbrev Assignment := ℕ → Bool

/-- A list of DIMACS literals, read as their conjunction. -/
abbrev Cube := List ℤ

/-- A list of DIMACS literals, read as their disjunction. -/
abbrev Clause := List ℤ

/-- Truth value of a literal. -/
def litTrue (a : Assignment) (l : ℤ) : Bool := if l < 0 then !a l.natAbs else a l.natAbs

/-- Truth value of a cube. -/
def cubeTrue (a : Assignment) (c : Cube) : Bool := c.all (litTrue a)

/-- Truth value of a clause. -/
def clauseTrue (a : Assignment) (c : Clause) : Bool := c.any (litTrue a)

/-- Truth value of a clause list. -/
def formulaTrue (a : Assignment) (f : List Clause) : Bool := f.all (clauseTrue a)

variable {a : Assignment} {l : ℤ} {c : Cube}

theorem litTrue_neg (hl : l ≠ 0) : litTrue a (-l) = !litTrue a l := by
  unfold litTrue
  rcases lt_or_gt_of_ne hl with h | h
  · rw [if_neg (by omega), if_pos h, Int.natAbs_neg, Bool.not_not]
  · rw [if_pos (by omega), if_neg (by omega), Int.natAbs_neg]

theorem cubeTrue_append (c d : Cube) : cubeTrue a (c ++ d) = (cubeTrue a c && cubeTrue a d) :=
  List.all_append

theorem cubeTrue_snoc : cubeTrue a (c ++ [l]) = (cubeTrue a c && litTrue a l) := by
  simp [cubeTrue]

theorem cubeTrue_iff : cubeTrue a c = true ↔ ∀ l ∈ c, litTrue a l = true :=
  List.all_eq_true

/-! ### Counting the cubes an assignment satisfies -/

/-- The number of cubes of the list that `a` satisfies. -/
def hits (a : Assignment) (cubes : List Cube) : ℕ := cubes.countP (cubeTrue a)

@[simp] theorem hits_nil : hits a [] = 0 := rfl

@[simp] theorem hits_append (cs ds : List Cube) : hits a (cs ++ ds) = hits a cs + hits a ds :=
  List.countP_append

theorem hits_cons (c : Cube) (cs : List Cube) : hits a (c :: cs) = (cubeTrue a c).toNat + hits a cs := by
  unfold hits
  rw [List.countP_cons]
  cases cubeTrue a c <;> simp [Nat.add_comm]

theorem hits_singleton (c : Cube) : hits a [c] = (cubeTrue a c).toNat := by
  rw [hits_cons, hits_nil, Nat.add_zero]

theorem hits_perm {cs ds : List Cube} (h : cs.Perm ds) : hits a cs = hits a ds :=
  h.countP_eq _

/-- **Splitting keeps the count.**  An assignment satisfying `c` satisfies exactly one of the
extensions of `c` by a literal and by its negation. -/
theorem hits_split (hl : l ≠ 0) : hits a [c ++ [l], c ++ [-l]] = hits a [c] := by
  simp only [hits_cons, hits_nil, cubeTrue_snoc, litTrue_neg hl]
  cases cubeTrue a c <;> cases litTrue a l <;> rfl

end HydraSAT.Lib
