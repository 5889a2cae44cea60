import Mathlib.Order.Lattice

/-!
# Selection loops

A loop that keeps the best element it has seen.  Elements may be skipped; any other replaces the best
one if its key is strictly greater.

* `select_cases`, `key_le_select`: the loop ends with a greatest candidate, or with what it started
  from;
* `select_congr`: the order and the repetitions of the elements do not matter if candidates with equal
  keys are equal.
-/

namespace HydraSAT.Lib.Selection

variable {β κ : Type*} [LinearOrder κ] {skip : β → Bool} {key : β → κ} {best e : β} {xs ys : List β}

/-- One turn of the loop. -/
def consider (skip : β → Bool) (key : β → κ) (best e : β) : β :=
  if skip e then best else if key best < key e then e else best

/-- The loop. -/
def select (skip : β → Bool) (key : β → κ) (best : β) (xs : List β) : β :=
  xs.foldl (consider skip key) best

theorem consider_cases (skip : β → Bool) (key : β → κ) (best e : β) :
    consider skip key best e = best ∨
      (consider skip key best e = e ∧ skip e = false ∧ key best < key e) := by
  unfold consider
  split
  · exact .inl rfl
  · rename_i hskip
    split
    · rename_i hlt
      exact .inr ⟨rfl, Bool.eq_false_iff.mpr hskip, hlt⟩
    · exact .inl rfl

/-- The key of the best element only grows. -/
theorem key_le_consider (skip : β → Bool) (key : β → κ) (best e : β) :
    key best ≤ key (consider skip key best e) := by
  rcases consider_cases skip key best e with heq | ⟨heq, -, hlt⟩
  · exact le_of_eq (congrArg key heq.symm)
  · rw [heq]
    exact le_of_lt hlt

theorem le_key_select (skip : β → Bool) (key : β → κ) (best : β) (xs : List β) :
    key best ≤ key (select skip key best xs) := by
  unfold select
  induction xs generalizing best with
  | nil => exact le_refl _
  | cons e xs ih => exact le_trans (key_le_consider skip key best e) (ih _)

/-- The loop ends with what it started from, or with a candidate that is better. -/
theorem select_cases (skip : β → Bool) (key : β → κ) (best : β) (xs : List β) :
    select skip key best xs = best ∨
      (select skip key best xs ∈ xs ∧ skip (select skip key best xs) = false ∧
        key best < key (select skip key best xs)) := by
  unfold select
  induction xs generalizing best with
  | nil => exact .inl rfl
  | cons e xs ih =>
      rw [List.foldl_cons]
      rcases ih (consider skip key best e) with heq | ⟨hmem, hskip, hlt⟩
      · rw [heq]
        rcases consider_cases skip key best e with hsame | ⟨hnew, hskip, hlt⟩
        · exact .inl hsame
        · rw [hnew]
          exact .inr ⟨List.mem_cons_self, hskip, hlt⟩
      · exact .inr ⟨List.mem_cons_of_mem e hmem, hskip,
          lt_of_le_of_lt (key_le_consider skip key best e) hlt⟩

/-- **No candidate is better than the result.** -/
theorem key_le_select (he : e ∈ xs) (hskip : skip e = false) :
    key e ≤ key (select skip key best xs) := by
  unfold select
  induction xs generalizing best with
  | nil => exact absurd he List.not_mem_nil
  | cons x xs ih =>
      rcases List.mem_cons.mp he with rfl | he
      · refine le_trans ?_ (le_key_select skip key (consider skip key best e) xs)
        unfold consider
        rw [if_neg (Bool.eq_false_iff.mp hskip)]
        split
        · exact le_refl _
        · rename_i hlt
          exact not_lt.mp hlt
      · exact ih he

/-- **The result depends on the candidates only.** -/
theorem select_congr (hmem : ∀ e, skip e = false → (e ∈ xs ↔ e ∈ ys))
    (hkey : ∀ x ∈ xs, ∀ y ∈ xs, key x = key y → x = y) :
    select skip key best xs = select skip key best ys := by
  have hle : ∀ zs ws : List β, (∀ e, skip e = false → (e ∈ zs ↔ e ∈ ws)) →
      key (select skip key best zs) ≤ key (select skip key best ws) := by
    intro zs ws hsame
    rcases select_cases skip key best zs with heq | ⟨hin, hskip, -⟩
    · rw [heq]
      exact le_key_select skip key best ws
    · exact key_le_select ((hsame _ hskip).mp hin) hskip
  have heq := le_antisymm (hle xs ys hmem) (hle ys xs fun e he => (hmem e he).symm)
  rcases select_cases skip key best xs with hx | ⟨hx, -, hxlt⟩
  · rcases select_cases skip key best ys with hy | ⟨-, -, hylt⟩
    · exact hx.trans hy.symm
    · rw [← heq, hx] at hylt
      exact absurd hylt (lt_irrefl _)
  · rcases select_cases skip key best ys with hy | ⟨hy, hyskip, -⟩
    · rw [heq, hy] at hxlt
      exact absurd hxlt (lt_irrefl _)
    · exact hkey _ hx _ ((hmem _ hyskip).mpr hy) heq

end HydraSAT.Lib.Selection
