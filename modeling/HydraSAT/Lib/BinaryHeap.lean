import Mathlib.Data.List.Perm.Basic
import Mathlib.Data.List.Nodup

/-!
# The binary heap behind a priority queue

`push_heap` and `pop_heap` of the C++ standard library on a vector, as sifts of a hole: the value in
hand is written only when its place is found.  `heavier a b` orders the elements; the lightest one is
at the front.

* `push_perm`, `pop_perm`: the operations keep the bag of elements;
* `push_head`: an element that the front is not heavier than does not displace the front.
-/

namespace HydraSAT.Lib.BinaryHeap

variable {β : Type*} {heavier : β → β → Bool} {value : β}

/-- `__push_heap`: move the hole towards the front past heavier parents, then write the value.  The
first argument bounds the number of moves; the hole's own index is enough. -/
def siftUp (heavier : β → β → Bool) (value : β) : ℕ → List β → ℕ → List β
  | 0, xs, hole => xs.set hole value
  | fuel + 1, xs, hole =>
      match xs[(hole - 1) / 2]? with
      | none => xs.set hole value
      | some p =>
          if 0 < hole ∧ heavier p value = true then
            siftUp heavier value fuel (xs.set hole p) ((hole - 1) / 2)
          else xs.set hole value

/-- `push_back` and `push_heap`. -/
def push (heavier : β → β → Bool) (xs : List β) (value : β) : List β :=
  siftUp heavier value xs.length (xs ++ [value]) xs.length

/-- The loop of `__adjust_heap`: move the hole down to the lighter child while it has two. -/
def siftDown (heavier : β → β → Bool) : ℕ → List β → ℕ → List β × ℕ
  | 0, xs, hole => (xs, hole)
  | fuel + 1, xs, hole =>
      match xs[2 * hole + 1]?, xs[2 * hole + 2]? with
      | some l, some r =>
          if heavier r l then siftDown heavier fuel (xs.set hole l) (2 * hole + 1)
          else siftDown heavier fuel (xs.set hole r) (2 * hole + 2)
      | _, _ => (xs, hole)

/-- The step of `__adjust_heap` for a last child without a sibling. -/
def siftLast (p : List β × ℕ) : List β × ℕ :=
  match p.1[2 * p.2 + 1]? with
  | some l => if p.1.length = 2 * p.2 + 2 then (p.1.set p.2 l, 2 * p.2 + 1) else p
  | none => p

/-- `__adjust_heap` from the front. -/
def adjust (heavier : β → β → Bool) (value : β) (xs : List β) : List β :=
  siftUp heavier value (siftLast (siftDown heavier xs.length xs 0)).2
    (siftLast (siftDown heavier xs.length xs 0)).1 (siftLast (siftDown heavier xs.length xs 0)).2

/-- `pop_heap` and `pop_back`: the last element goes where the front was. -/
def pop (heavier : β → β → Bool) : List β → List β
  | [] => []
  | [_] => []
  | x :: y :: rest =>
      adjust heavier ((y :: rest).getLast (List.cons_ne_nil y rest)) (x :: y :: rest).dropLast

/-! ### Bags of elements -/

/-- Moving an element into the hole moves the hole to where the element was. -/
theorem set_set_hole {xs : List β} {i j : ℕ} {y : β} (hi : i < xs.length) (hj : xs[j]? = some y)
    (hne : i ≠ j) : ((xs.set i y).set j value).Perm (xs.set i value) := by
  obtain ⟨hj', rfl⟩ := List.getElem?_eq_some_iff.mp hj
  have hi' : i < (xs.set i value).length := by rwa [List.length_set]
  have hj'' : j < (xs.set i value).length := by rwa [List.length_set]
  have hget : (xs.set i value).get ⟨j, hj''⟩ = xs[j] := List.getElem_set_ne hne _
  have hself : (xs.set i value).get ⟨i, hi'⟩ = value := List.getElem_set_self _
  have hswap : (((xs.set i value).set i ((xs.set i value).get ⟨j, hj''⟩)).set j
      ((xs.set i value).get ⟨i, hi'⟩)).Perm (xs.set i value) := List.set_set_perm hi' hj''
  rw [hget, hself, List.set_set] at hswap
  exact hswap

theorem siftUp_perm (fuel : ℕ) (xs : List β) (hole : ℕ) (hhole : hole < xs.length) :
    (siftUp heavier value fuel xs hole).Perm (xs.set hole value) := by
  induction fuel generalizing xs hole with
  | zero => exact List.Perm.refl _
  | succ fuel ih =>
      rw [siftUp]
      split
      · exact List.Perm.refl _
      · rename_i p hp
        split
        · rename_i hmove
          have hlt : (hole - 1) / 2 < hole := by omega
          refine (ih (xs.set hole p) ((hole - 1) / 2) (by rw [List.length_set]; omega)).trans ?_
          exact set_set_hole hhole hp (by omega)
        · exact List.Perm.refl _

/-- **Pushing adds the value.** -/
theorem push_perm (xs : List β) (value : β) : (push heavier xs value).Perm (value :: xs) := by
  have hlen : xs.length < (xs ++ [value]).length := by simp
  refine (siftUp_perm xs.length (xs ++ [value]) xs.length hlen).trans ?_
  have hset : (xs ++ [value]).set xs.length value = xs ++ [value] := by simp
  rw [hset]
  exact List.perm_append_singleton value xs

theorem siftDown_perm (fuel : ℕ) (xs : List β) (hole : ℕ) (hhole : hole < xs.length) :
    (siftDown heavier fuel xs hole).2 < (siftDown heavier fuel xs hole).1.length ∧
      ((siftDown heavier fuel xs hole).1.set (siftDown heavier fuel xs hole).2 value).Perm
        (xs.set hole value) := by
  induction fuel generalizing xs hole with
  | zero => exact ⟨hhole, List.Perm.refl _⟩
  | succ fuel ih =>
      rw [siftDown]
      split
      · rename_i l r hl hr
        have hl' := (List.getElem?_eq_some_iff.mp hl).1
        have hr' := (List.getElem?_eq_some_iff.mp hr).1
        split
        · obtain ⟨hlt, hperm⟩ := ih (xs.set hole l) (2 * hole + 1) (by rwa [List.length_set])
          exact ⟨hlt, hperm.trans (set_set_hole hhole hl (by omega))⟩
        · obtain ⟨hlt, hperm⟩ := ih (xs.set hole r) (2 * hole + 2) (by rwa [List.length_set])
          exact ⟨hlt, hperm.trans (set_set_hole hhole hr (by omega))⟩
      · exact ⟨hhole, List.Perm.refl _⟩

theorem siftLast_perm (p : List β × ℕ) (hhole : p.2 < p.1.length) :
    (siftLast p).2 < (siftLast p).1.length ∧
      ((siftLast p).1.set (siftLast p).2 value).Perm (p.1.set p.2 value) := by
  unfold siftLast
  split
  · rename_i l hl
    split
    · have hl' := (List.getElem?_eq_some_iff.mp hl).1
      exact ⟨by rwa [List.length_set], set_set_hole hhole hl (by omega)⟩
    · exact ⟨hhole, List.Perm.refl _⟩
  · exact ⟨hhole, List.Perm.refl _⟩

theorem adjust_perm {xs : List β} (hne : xs ≠ []) :
    (adjust heavier value xs).Perm (value :: xs.tail) := by
  have hpos := List.length_pos_of_ne_nil hne
  obtain ⟨hdown, hdown'⟩ := @siftDown_perm β heavier value xs.length xs 0 hpos
  obtain ⟨hlast, hlast'⟩ := @siftLast_perm β value (siftDown heavier xs.length xs 0) hdown
  refine (siftUp_perm _ _ _ hlast).trans (hlast'.trans (hdown'.trans ?_))
  cases xs with
  | nil => exact absurd rfl hne
  | cons x xs => exact List.Perm.refl _

/-- **Popping removes the front.** -/
theorem pop_perm (x : β) (xs : List β) : (pop heavier (x :: xs)).Perm xs := by
  cases xs with
  | nil => exact List.Perm.refl _
  | cons y rest =>
      have hne : (x :: y :: rest).dropLast ≠ [] := by simp
      refine (adjust_perm hne).trans ?_
      have htail : (x :: y :: rest).dropLast.tail = (y :: rest).dropLast := rfl
      rw [htail]
      have hsplit := List.dropLast_append_getLast (List.cons_ne_nil y rest)
      refine (List.perm_append_singleton _ _).symm.trans ?_
      rw [hsplit]

theorem length_pop (xs : List β) : (pop heavier xs).length = xs.length - 1 := by
  cases xs with
  | nil => rfl
  | cons x xs => exact (pop_perm x xs).length_eq

/-- A count over the queue is that of its front and of what popping leaves. -/
theorem countP_pop {p : β → Bool} {queue rest : List β} {top : β} (h : queue = top :: rest) :
    [top].countP p + (pop heavier queue).countP p = queue.countP p := by
  rw [h, (pop_perm top rest).countP_eq]
  exact List.countP_append.symm

/-! ### The front -/

theorem siftUp_head (fuel : ℕ) (xs : List β) (hole : ℕ) (hhole : 0 < hole) {x : β}
    (hx : xs.head? = some x) (hle : heavier x value = false) :
    (siftUp heavier value fuel xs hole).head? = some x := by
  have hset : ∀ (ys : List β) (v : β) (k : ℕ), ys.head? = some x → 0 < k →
      (ys.set k v).head? = some x := by
    intro ys v k hy hk
    cases ys with
    | nil => exact nomatch hy
    | cons y ys =>
        obtain ⟨k, rfl⟩ := Nat.exists_eq_succ_of_ne_zero (Nat.pos_iff_ne_zero.mp hk)
        exact hy
  induction fuel generalizing xs hole with
  | zero => exact hset xs value hole hx hhole
  | succ fuel ih =>
      rw [siftUp]
      split
      · exact hset xs value hole hx hhole
      · rename_i p hp
        split
        · rename_i hmove
          by_cases hfront : (hole - 1) / 2 = 0
          · rw [hfront, ← List.head?_eq_getElem?, hx] at hp
            rw [← Option.some.inj hp, hle] at hmove
            exact absurd hmove.2 Bool.false_ne_true
          · exact ih (xs.set hole p) _ (by omega) (hset xs p hole hx hhole)
        · exact hset xs value hole hx hhole

/-- **The front stays in front** of a value that it is not heavier than. -/
theorem push_head {x : β} {xs : List β} (hle : heavier x value = false) :
    (push heavier (x :: xs) value).head? = some x :=
  siftUp_head _ _ _ (Nat.succ_pos _) rfl hle

end HydraSAT.Lib.BinaryHeap
