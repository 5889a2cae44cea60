import Mathlib.Data.Fintype.Pi
import Mathlib.Data.Finset.Card
import HydraSAT.Lib.Dimacs

/-!
# Counting models over declared variables

A formula with header `n` is counted over the assignments of the variables `1..n`.  A literal of any
other variable has no value there; neither it nor its negation is true.

* `modelCount_split`: branching on a declared variable splits the count;
* `modelCount_undeclared`: branching on any other loses it.
-/

namespace HydraSAT.Lib

variable {n : ℕ} {f : List Clause} {c : Cube} {l : ℤ}

/-- The literal is of one of the variables `1..n`. -/
def Declared (n : ℕ) (l : ℤ) : Prop := 0 < l.natAbs ∧ l.natAbs ≤ n

instance : Decidable (Declared n l) := inferInstanceAs (Decidable (_ ∧ _))

/-- Truth value of a literal over the declared variables. -/
def litHolds (a : Fin n → Bool) (l : ℤ) : Bool :=
  if h : Declared n l then a ⟨l.natAbs - 1, Nat.sub_one_lt_of_le h.1 h.2⟩ == decide (0 < l) else false

/-- All clauses and all literals of the cube hold. -/
def holdsAll (f : List Clause) (c : Cube) (a : Fin n → Bool) : Bool :=
  (f.all fun clause => clause.any (litHolds a)) && c.all (litHolds a)

/-- The number of models of `f ∧ c` over the variables `1..n`. -/
def modelCount (n : ℕ) (f : List Clause) (c : Cube) : ℕ :=
  (Finset.univ.filter fun a : Fin n → Bool => holdsAll f c a = true).card

theorem Declared.neg (h : Declared n l) : Declared n (-l) := by
  unfold Declared at *
  rwa [Int.natAbs_neg]

theorem litHolds_neg (a : Fin n → Bool) (h : Declared n l) : litHolds a (-l) = !litHolds a l := by
  have hz : l ≠ 0 := Int.natAbs_pos.mp h.1
  have hidx : (⟨(-l).natAbs - 1, Nat.sub_one_lt_of_le h.neg.1 h.neg.2⟩ : Fin n) =
      ⟨l.natAbs - 1, Nat.sub_one_lt_of_le h.1 h.2⟩ := by
    rw [Fin.mk.injEq, Int.natAbs_neg]
  have hsign : decide (0 < -l) = !decide (0 < l) := by
    rw [← decide_not, decide_eq_decide]
    omega
  rw [litHolds, litHolds, dif_pos h, dif_pos h.neg, hidx, hsign]
  cases a ⟨l.natAbs - 1, _⟩ <;> cases decide (0 < l) <;> rfl

theorem holdsAll_snoc (a : Fin n → Bool) :
    holdsAll f (c ++ [l]) a = (holdsAll f c a && litHolds a l) := by
  simp [holdsAll, Bool.and_assoc]

/-- **Branching on a declared variable splits the count.** -/
theorem modelCount_split (h : Declared n l) :
    modelCount n f c = modelCount n f (c ++ [l]) + modelCount n f (c ++ [-l]) := by
  unfold modelCount
  have hpos : (Finset.univ.filter fun a : Fin n → Bool => holdsAll f (c ++ [l]) a = true) =
      (Finset.univ.filter fun a : Fin n → Bool => holdsAll f c a = true).filter
        fun a => litHolds a l = true := by
    ext a
    simp [holdsAll_snoc]
  have hneg : (Finset.univ.filter fun a : Fin n → Bool => holdsAll f (c ++ [-l]) a = true) =
      (Finset.univ.filter fun a : Fin n → Bool => holdsAll f c a = true).filter
        fun a => ¬litHolds a l = true := by
    ext a
    simp [holdsAll_snoc, litHolds_neg a h]
  rw [hpos, hneg]
  exact (Finset.card_filter_add_card_filter_not _).symm

/-- **A cube with an undeclared variable has no models.** -/
theorem modelCount_undeclared (h : ¬Declared n l) : modelCount n f (c ++ [l]) = 0 := by
  unfold modelCount
  rw [Finset.card_eq_zero, Finset.filter_eq_empty_iff]
  intro a _ htrue
  rw [holdsAll_snoc, litHolds, dif_neg h, Bool.and_false] at htrue
  exact Bool.noConfusion htrue

end HydraSAT.Lib
