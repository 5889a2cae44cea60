import Mathlib.Data.List.Induction

/-!
# Unit closure

A clause all of whose literals but one are refuted forces the remaining one.  `Forced F D` are the
literals that the clauses `F` force, one after the other, from the decisions `D`:

* `ClosedUnder`: a list of literals that has all that it forces;
* `Justified`: a trail on which every literal is a decision or forced by those before it;
* `Justified.mem_iff`: such a trail, when it is closed and has all the decisions, holds exactly the
  forced literals, so that the order in which they came does not matter.
-/

namespace HydraSAT.Lib

variable {L : Type*} [Neg L] {F : List (List L)} {D D' T U : List L} {l : L}

inductive Forced (F : List (List L)) (D : List L) : L → Prop
  | decided {l : L} : l ∈ D → Forced F D l
  | unit {c : List L} {l : L} : c ∈ F → l ∈ c → (∀ k ∈ c, k ≠ l → Forced F D (-k)) → Forced F D l

/-- The list has every literal that a clause forces from it. -/
def ClosedUnder (F : List (List L)) (T : List L) : Prop :=
  ∀ c ∈ F, ∀ l ∈ c, (∀ k ∈ c, k ≠ l → -k ∈ T) → l ∈ T

/-- Every literal of the trail is a decision, or a clause forces it from the literals before it. -/
def Justified (F : List (List L)) (D T : List L) : Prop :=
  ∀ pre l post, T = pre ++ l :: post →
    l ∈ D ∨ ∃ c ∈ F, l ∈ c ∧ ∀ k ∈ c, k ≠ l → -k ∈ pre

/-- A closed list that has the decisions has all that they force. -/
theorem Forced.mem (h : Forced F D l) (hT : ClosedUnder F T) (hD : ∀ k ∈ D, k ∈ T) : l ∈ T := by
  induction h with
  | decided hl => exact hD _ hl
  | unit hc hl _ ih => exact hT _ hc _ hl ih

theorem Forced.mono (h : Forced F D l) (hD : ∀ k ∈ D, k ∈ D') : Forced F D' l := by
  induction h with
  | decided hl => exact .decided (hD _ hl)
  | unit hc hl _ ih => exact .unit hc hl ih

namespace Justified

theorem nil : Justified F D [] := by
  intro pre l post h
  exact absurd h.symm (List.append_ne_nil_of_right_ne_nil pre (List.cons_ne_nil l post))

/-- A part of the trail from its start is justified. -/
theorem left (h : Justified F D (T ++ U)) : Justified F D T := by
  intro pre l post heq
  exact h pre l (post ++ U) (by rw [heq, List.append_assoc, List.cons_append])

/-- What the last literal needs, it needs of the trail before it. -/
theorem concat (h : Justified F D T)
    (hl : l ∈ D ∨ ∃ c ∈ F, l ∈ c ∧ ∀ k ∈ c, k ≠ l → -k ∈ T) : Justified F D (T ++ [l]) := by
  intro pre k post heq
  rcases List.eq_nil_or_concat post with rfl | ⟨post, last, rfl⟩
  · obtain ⟨rfl, hlast⟩ := List.append_inj' heq rfl
    obtain rfl := List.singleton_inj.mp hlast
    exact hl
  · rw [List.concat_eq_append, ← List.cons_append, ← List.append_assoc] at heq
    exact h pre k post (List.append_inj' heq rfl).1

/-- Only the decisions on the trail matter. -/
theorem congr (h : Justified F D T) (hD : ∀ l ∈ T, l ∈ D → l ∈ D') : Justified F D' T := by
  intro pre l post heq
  refine (h pre l post heq).imp (hD l ?_) id
  rw [heq]
  exact List.mem_append_right pre List.mem_cons_self

theorem forced (h : Justified F D T) (hl : l ∈ T) : Forced F D l := by
  induction T using List.reverseRecOn generalizing l with
  | nil => exact absurd hl List.not_mem_nil
  | append_singleton T last ih =>
      rcases List.mem_append.mp hl with hl | hl
      · exact ih h.left hl
      · rw [List.mem_singleton.mp hl]
        rcases h T last [] rfl with hD | ⟨c, hc, hmem, hothers⟩
        · exact .decided hD
        · exact .unit hc hmem fun k hk hne => ih h.left (hothers k hk hne)

/-- **A justified trail that is closed holds the unit closure of its decisions.** -/
theorem mem_iff (h : Justified F D T) (hT : ClosedUnder F T) (hD : ∀ k ∈ D, k ∈ T) :
    l ∈ T ↔ Forced F D l :=
  ⟨h.forced, fun hl => hl.mem hT hD⟩

end Justified

end HydraSAT.Lib
