import Mathlib.Data.List.Infix
import Mathlib.Data.List.TakeWhile

/-!
# Searching a text for a pattern

A pattern of literal words separated by nonempty gaps, followed by a nonempty run of characters, is
matched from left to right.  Where no word starts with a gap character and no run character is a gap
character, the greedy reading is the only one, so no backtracking is needed.

* `search m`: the result of `m` on the first suffix where it succeeds;
* `occurs_of_search`, `search_isSome`: a search succeeds where `m` does, and only with what it gives;
* `Occurs.skip`: a part of the text where `m` fails is skipped;
* `eq_of_straddle`: where an occurrence of a word goes when a line without it is cut off.
-/

namespace HydraSAT.Lib

variable {α β : Type*}

/-- The result of `m` on the first suffix where it succeeds. -/
def search (m : List α → Option β) : List α → Option β
  | [] => m []
  | x :: xs => (m (x :: xs)).or (search m xs)

/-- The rest of the text behind the word, if the text starts with it. -/
def skipWord [DecidableEq α] : List α → List α → Option (List α)
  | [], xs => some xs
  | _ :: _, [] => none
  | w :: ws, x :: xs => if w = x then skipWord ws xs else none

/-- The rest of the text behind a nonempty gap. -/
def skipGap (gap : α → Bool) : List α → Option (List α)
  | [] => none
  | x :: xs => if gap x then some (xs.dropWhile gap) else none

/-- The rest of the text behind words that are each followed by a gap. -/
def skipWords [DecidableEq α] (gap : α → Bool) : List (List α) → List α → Option (List α)
  | [], xs => some xs
  | w :: ws, xs => ((skipWord w xs).bind (skipGap gap)).bind (skipWords gap ws)

/-- The nonempty run at the start of the text. -/
def takeRun (p : α → Bool) (xs : List α) : Option (List α) :=
  match xs.takeWhile p with
  | [] => none
  | y :: ys => some (y :: ys)

theorem skipWord_eq [DecidableEq α] {w xs ys : List α} (h : skipWord w xs = some ys) :
    xs = w ++ ys := by
  induction w generalizing xs with
  | nil => exact Option.some.inj h
  | cons c w ih =>
      cases xs with
      | nil => exact nomatch h
      | cons x xs =>
          rw [skipWord] at h
          split at h
          · rename_i hc
            rw [hc, ih h, List.cons_append]
          · exact nomatch h

theorem skipWord_append [DecidableEq α] (w ys : List α) : skipWord w (w ++ ys) = some ys := by
  induction w with
  | nil => rfl
  | cons c w ih => rw [List.cons_append, skipWord, if_pos rfl, ih]

theorem skipGap_eq {gap : α → Bool} {xs ys : List α} (h : skipGap gap xs = some ys) :
    ∃ g, xs = g ++ ys ∧ ∀ x ∈ g, gap x = true := by
  cases xs with
  | nil => exact nomatch h
  | cons x xs =>
      rw [skipGap] at h
      split at h
      · rename_i hx
        refine ⟨x :: xs.takeWhile gap, ?_, ?_⟩
        · rw [← Option.some.inj h, List.cons_append, List.takeWhile_append_dropWhile]
        · intro y hy
          rcases List.mem_cons.mp hy with rfl | hy
          · exact hx
          · exact List.mem_takeWhile_imp hy
      · exact nomatch h

/-- The first of the words, its gap, and what the others are matched against. -/
theorem skipWords_cons [DecidableEq α] {gap : α → Bool} {w : List α} {ws : List (List α)}
    {xs zs : List α} (h : skipWords gap (w :: ws) xs = some zs) :
    ∃ g ys, xs = w ++ (g ++ ys) ∧ (∀ x ∈ g, gap x = true) ∧ skipWords gap ws ys = some zs := by
  rw [skipWords] at h
  obtain ⟨ys, hys, hrest⟩ := Option.bind_eq_some_iff.mp h
  obtain ⟨us, hus, hgap⟩ := Option.bind_eq_some_iff.mp hys
  obtain ⟨g, rfl, hall⟩ := skipGap_eq hgap
  exact ⟨g, ys, skipWord_eq hus, hall, hrest⟩

/-- A word without a gap behind it. -/
theorem skipWords_stuck [DecidableEq α] {gap : α → Bool} {w : List α} {ws : List (List α)} {x : α}
    {ys : List α} (hx : gap x = false) : skipWords gap (w :: ws) (w ++ x :: ys) = none := by
  rw [skipWords, skipWord_append, Option.bind_some, skipGap, if_neg (by simp [hx]), Option.bind_none]

/-- A word, one gap character and the start of what follows. -/
theorem skipWords_word [DecidableEq α] {gap : α → Bool} {w : List α} {ws : List (List α)} {s x : α}
    {ys : List α} (hs : gap s = true) (hx : gap x = false) :
    skipWords gap (w :: ws) (w ++ s :: x :: ys) = skipWords gap ws (x :: ys) := by
  rw [skipWords, skipWord_append, Option.bind_some, skipGap, if_pos hs,
    List.dropWhile_cons_of_neg (by simp [hx]), Option.bind_some]

/-- Words, each with one gap character behind it, in front of a text. -/
def spaced (s : α) (words : List (List α)) (xs : List α) : List α :=
  words.foldr (fun w ys => w ++ s :: ys) xs

theorem spaced_append (s : α) (words : List (List α)) (xs ys : List α) :
    spaced s words xs ++ ys = spaced s words (xs ++ ys) := by
  induction words with
  | nil => rfl
  | cons w words ih =>
      show (w ++ s :: spaced s words xs) ++ ys = w ++ s :: spaced s words (xs ++ ys)
      rw [← ih, List.append_assoc, List.cons_append]

/-- **Words in front of a text are skipped**, if neither they nor the text begin with a gap. -/
theorem skipWords_spaced [DecidableEq α] {gap : α → Bool} {s : α} (hs : gap s = true)
    {words : List (List α)} (hwords : ∀ w ∈ words, w.head?.map gap = some false) {xs : List α}
    (hxs : xs.head?.map gap = some false) : skipWords gap words (spaced s words xs) = some xs := by
  induction words with
  | nil => rfl
  | cons w words ih =>
      have hhead : (spaced s words xs).head?.map gap = some false := by
        cases words with
        | nil => exact hxs
        | cons w' words =>
            have hw' := hwords w' (List.mem_cons_of_mem _ List.mem_cons_self)
            cases w' with
            | nil => cases hw'
            | cons c cs => exact hw'
      have hrest := ih fun w' hw' => hwords w' (List.mem_cons_of_mem _ hw')
      show skipWords gap (w :: words) (w ++ s :: spaced s words xs) = some xs
      cases htext : spaced s words xs with
      | nil =>
          rw [htext] at hhead
          cases hhead
      | cons x ys =>
          rw [htext] at hhead hrest
          rw [skipWords_word hs (Option.some.inj hhead)]
          exact hrest

theorem takeRun_append {p : α → Bool} {xs ys : List α} {y : α} (hne : xs ≠ [])
    (hall : ∀ x ∈ xs, p x = true) (hy : p y = false) : takeRun p (xs ++ y :: ys) = some xs := by
  have htake : (xs ++ y :: ys).takeWhile p = xs := by
    rw [List.takeWhile_append_of_pos hall, List.takeWhile_cons_of_neg (by simp [hy]), List.append_nil]
  unfold takeRun
  rw [htake]
  cases xs with
  | nil => exact absurd rfl hne
  | cons x xs => rfl

/-! ### Occurrences -/

/-- `m` succeeds with `b` somewhere in the text. -/
def Occurs (m : List α → Option β) (text : List α) (b : β) : Prop :=
  ∃ pre suf, text = pre ++ suf ∧ m suf = some b

theorem Occurs.head {m : List α → Option β} {text : List α} {b : β} (h : m text = some b) :
    Occurs m text b :=
  ⟨[], text, rfl, h⟩

theorem Occurs.prepend {m : List α → Option β} {text : List α} {b : β} (h : Occurs m text b)
    (xs : List α) : Occurs m (xs ++ text) b := by
  obtain ⟨pre, suf, rfl, hsuf⟩ := h
  exact ⟨xs ++ pre, suf, (List.append_assoc xs pre suf).symm, hsuf⟩

theorem Occurs.uncons {m : List α → Option β} {x : α} {xs : List α} {b : β}
    (h : Occurs m (x :: xs) b) : m (x :: xs) = some b ∨ Occurs m xs b := by
  obtain ⟨pre, suf, heq, hsuf⟩ := h
  cases pre with
  | nil => exact .inl (heq ▸ hsuf)
  | cons y pre => exact .inr ⟨pre, suf, (List.cons.inj heq).2, hsuf⟩

/-- **What is found occurs.** -/
theorem occurs_of_search {m : List α → Option β} {text : List α} {b : β} (h : search m text = some b) :
    Occurs m text b := by
  induction text with
  | nil => exact .head h
  | cons x xs ih =>
      rw [search, Option.or_eq_some_iff] at h
      rcases h with h | ⟨-, h⟩
      · exact .head h
      · exact (ih h).prepend [x]

/-- **Where something occurs, something is found.** -/
theorem search_isSome {m : List α → Option β} {text : List α} {b : β} (h : Occurs m text b) :
    (search m text).isSome = true := by
  obtain ⟨pre, suf, rfl, hsuf⟩ := h
  induction pre with
  | nil =>
      cases suf with
      | nil => exact Option.isSome_iff_exists.mpr ⟨b, hsuf⟩
      | cons x xs =>
          rw [List.nil_append, search, hsuf]
          rfl
  | cons x pre ih =>
      rw [List.cons_append, search, Option.isSome_or, ih, Bool.or_true]

/-- **An occurrence starts in the first part or lies in the second.** -/
theorem Occurs.append {m : List α → Option β} {xs ys : List α} {b : β} (h : Occurs m (xs ++ ys) b) :
    (∃ us v vs, xs = us ++ v :: vs ∧ m (v :: vs ++ ys) = some b) ∨ Occurs m ys b := by
  obtain ⟨pre, suf, heq, hsuf⟩ := h
  rcases List.append_eq_append_iff.mp heq with ⟨c, -, hys⟩ | ⟨c, hxs, hc⟩
  · exact .inr ⟨c, suf, hys, hsuf⟩
  · cases c with
    | nil => exact .inr (.head (by rw [← List.nil_append ys, ← hc]; exact hsuf))
    | cons v vs => exact .inl ⟨pre, v, vs, hxs, by rw [← hc]; exact hsuf⟩

/-- A part where the pattern fails holds no occurrence. -/
theorem Occurs.skip {m : List α → Option β} {xs ys : List α} {b : β} (h : Occurs m (xs ++ ys) b)
    (hno : ∀ us v vs, xs = us ++ v :: vs → m (v :: vs ++ ys) = none) : Occurs m ys b := by
  rcases h.append with ⟨us, v, vs, heq, hsome⟩ | h
  · rw [hno us v vs heq] at hsome
    exact absurd hsome (by simp)
  · exact h

/-- **Cutting off a line.**  An occurrence of a word that is not in the line `xs` and does not contain
the separator lies behind the separator. -/
theorem eq_of_straddle {xs R pre w post : List α} {sep : α} (hw : w ≠ []) (hsep : sep ∉ w)
    (hfree : ¬w <:+: xs) (h : xs ++ sep :: R = pre ++ (w ++ post)) :
    ∃ pre', pre = xs ++ sep :: pre' ∧ R = pre' ++ (w ++ post) := by
  rcases List.append_eq_append_iff.mp h with ⟨c, hpre, hc⟩ | ⟨c, hxs, hc⟩
  · cases c with
    | nil =>
        obtain ⟨x, w', rfl⟩ := List.exists_cons_of_ne_nil hw
        exact absurd (by rw [(List.cons.inj hc).1]; exact List.mem_cons_self) hsep
    | cons y c =>
        obtain ⟨rfl, hR⟩ := List.cons.inj hc
        exact ⟨c, hpre, hR⟩
  · rcases List.append_eq_append_iff.mp hc with ⟨d, hd, -⟩ | ⟨d, hd, hR⟩
    · exact absurd ⟨pre, d, by rw [hxs, hd, List.append_assoc]⟩ hfree
    · cases d with
      | nil => exact absurd ⟨pre, [], by rw [hxs, hd]; simp⟩ hfree
      | cons y d =>
          obtain ⟨rfl, -⟩ := List.cons.inj hR
          exact absurd (by rw [hd]; simp) hsep

end HydraSAT.Lib
