import Mathlib.Data.List.Basic
import Mathlib.Data.List.TakeWhile

/-!
# The words of a text

A text is read as words between separators.  How many separators stand between two words, and whether
some stand at the ends, makes no difference.

* `words`: the maximal runs without a separator;
* `words_append`: a separator between two texts;
* `words_induction`: a text is a gap, or a gap, a word and a text that does not go on with the word;
* `words_congr`: only the separators in the text matter.
-/

namespace HydraSAT.Lib

variable {α : Type*} {sep : α → Bool} {x : α} {xs ys : List α}

/-- The words of a text. -/
def words (sep : α → Bool) (xs : List α) : List (List α) :=
  (xs.splitOnP sep).filter fun w => !w.isEmpty

/-- Only separators. -/
def IsGap (sep : α → Bool) (xs : List α) : Prop := ∀ x ∈ xs, sep x = true

/-- No separators. -/
def IsFree (sep : α → Bool) (xs : List α) : Prop := ∀ x ∈ xs, sep x = false

/-- The text does not go on with a word. -/
def Stops (sep : α → Bool) (xs : List α) : Prop := ∀ x ∈ xs.head?, sep x = true

@[simp] theorem words_nil : words sep ([] : List α) = [] := rfl

/-- **A separator between two texts.** -/
theorem words_append (hx : sep x = true) : words sep (xs ++ x :: ys) = words sep xs ++ words sep ys := by
  unfold words
  rw [List.splitOnP_append_cons xs ys hx, List.filter_append]

theorem words_cons_sep (hx : sep x = true) : words sep (x :: ys) = words sep ys :=
  @words_append α sep x [] ys hx

theorem words_gap_append (h : IsGap sep xs) : words sep (xs ++ ys) = words sep ys := by
  induction xs with
  | nil => rfl
  | cons x xs ih =>
      rw [List.cons_append, words_cons_sep (h x List.mem_cons_self)]
      exact ih fun y hy => h y (List.mem_cons_of_mem x hy)

theorem words_of_gap (h : IsGap sep xs) : words sep xs = [] := by
  rw [← List.append_nil xs, words_gap_append h, words_nil]

theorem words_append_gap (h : IsGap sep ys) : words sep (xs ++ ys) = words sep xs := by
  cases ys with
  | nil => rw [List.append_nil]
  | cons y ys =>
      rw [words_append (h y List.mem_cons_self),
        words_of_gap fun z hz => h z (List.mem_cons_of_mem y hz), List.append_nil]

/-- A word and what does not belong to it. -/
theorem words_word_append (hne : xs ≠ []) (hfree : IsFree sep xs) (hys : Stops sep ys) :
    words sep (xs ++ ys) = xs :: words sep ys := by
  have hempty : xs.isEmpty = false := by simp [hne]
  cases ys with
  | nil =>
      unfold words
      rw [List.append_nil, List.splitOnP_eq_singleton hfree]
      simp [hempty]
  | cons y ys =>
      have hy : sep y = true := hys y rfl
      rw [words_append hy, words_cons_sep hy]
      unfold words
      rw [List.splitOnP_eq_singleton hfree]
      simp [hempty]

theorem words_of_free (hne : xs ≠ []) (hfree : IsFree sep xs) : words sep xs = [xs] := by
  have hnil : Stops sep ([] : List α) := fun _ hx => nomatch hx
  have hword := words_word_append hne hfree hnil
  rwa [List.append_nil, words_nil] at hword

theorem gap_takeWhile (xs : List α) : IsGap sep (xs.takeWhile sep) := fun _ hx =>
  List.mem_takeWhile_imp hx

theorem free_takeWhile (xs : List α) : IsFree sep (xs.takeWhile fun x => !sep x) := fun x hx => by
  have himp := List.mem_takeWhile_imp hx
  simpa using himp

theorem stops_dropWhile (xs : List α) : Stops sep (xs.dropWhile fun x => !sep x) := by
  intro x hx
  have hnot := List.head?_dropWhile_not (fun x => !sep x) xs
  have hx : (xs.dropWhile fun x => !sep x).head? = some x := hx
  rw [hx] at hnot
  simpa using hnot

/-- **Reading a text word by word.** -/
theorem words_induction (sep : α → Bool) {motive : List α → Prop} (gap : ∀ g, IsGap sep g → motive g)
    (word : ∀ g w rest, IsGap sep g → w ≠ [] → IsFree sep w → Stops sep rest → motive rest →
      motive (g ++ (w ++ rest))) (xs : List α) : motive xs := by
  induction hn : xs.length using Nat.strong_induction_on generalizing xs with
  | _ n ih =>
      have hsplit : xs.takeWhile sep ++ xs.dropWhile sep = xs := List.takeWhile_append_dropWhile
      cases hrest : xs.dropWhile sep with
      | nil =>
          rw [hrest, List.append_nil] at hsplit
          rw [← hsplit]
          exact gap _ (gap_takeWhile xs)
      | cons y ys =>
          have hy : sep y = false := by
            have hnot := List.head?_dropWhile_not sep xs
            rw [hrest] at hnot
            simpa using hnot
          have hword : (y :: ys).takeWhile (fun x => !sep x) ≠ [] := by simp [hy]
          have hcut := List.takeWhile_append_dropWhile (p := fun x => !sep x) (l := y :: ys)
          have hlen := congrArg List.length hcut
          have hlen' := congrArg List.length hsplit
          have hpos := List.length_pos_iff.mpr hword
          rw [List.length_append] at hlen
          rw [List.length_append, hrest] at hlen'
          rw [← hsplit, hrest, ← hcut]
          exact word _ _ _ (gap_takeWhile xs) hword (free_takeWhile _) (stops_dropWhile _)
            (ih _ (by omega) _ rfl)

/-- The words of a text that begins with a gap and a word. -/
theorem words_cons {g w rest : List α} (hg : IsGap sep g) (hne : w ≠ []) (hw : IsFree sep w)
    (hrest : Stops sep rest) : words sep (g ++ (w ++ rest)) = w :: words sep rest := by
  rw [words_gap_append hg, words_word_append hne hw hrest]

/-- A character that is no separator is in a word. -/
theorem exists_mem_words (hx : x ∈ xs) (hsep : sep x = false) : ∃ w ∈ words sep xs, x ∈ w := by
  induction xs using words_induction sep with
  | gap g hg => exact absurd (hg x hx) (by simp [hsep])
  | word g w rest hg hne hw hrest ih =>
      rw [words_cons hg hne hw hrest]
      rcases List.mem_append.mp hx with hx | hx
      · exact absurd (hg x hx) (by simp [hsep])
      · rcases List.mem_append.mp hx with hx | hx
        · exact ⟨w, List.mem_cons_self, hx⟩
        · obtain ⟨v, hv, hxv⟩ := ih hx
          exact ⟨v, List.mem_cons_of_mem w hv, hxv⟩

/-- **Only the separators in the text matter.** -/
theorem words_congr {sep' : α → Bool} (h : ∀ x ∈ xs, sep' x = sep x) : words sep' xs = words sep xs := by
  induction xs using words_induction sep with
  | gap g hg =>
      rw [words_of_gap hg]
      exact words_of_gap fun x hx => (h x hx).trans (hg x hx)
  | word g w rest hg hne hw hrest ih =>
      have hg' : IsGap sep' g := fun x hx => (h x (List.mem_append_left _ hx)).trans (hg x hx)
      have hw' : IsFree sep' w := fun x hx =>
        (h x (List.mem_append_right _ (List.mem_append_left _ hx))).trans (hw x hx)
      have hrest' : Stops sep' rest := fun x hx =>
        (h x (List.mem_append_right _ (List.mem_append_right _ (List.mem_of_mem_head? hx)))).trans
          (hrest x hx)
      rw [words_cons hg hne hw hrest, words_cons hg' hne hw' hrest', ih fun x hx =>
        h x (List.mem_append_right _ (List.mem_append_right _ hx))]

end HydraSAT.Lib
