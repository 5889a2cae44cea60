import Mathlib.Algebra.BigOperators.Group.List.Basic
import Mathlib.Data.List.Nodup
import Mathlib.Data.List.Perm.Subperm
import Mathlib.Tactic.Abel

/-!
# Pools of threads over a shared state

Threads that run the same code over a shared state `σ`, each with a local state `τ` (its control
point and local variables).  `stepThread` moves the thread at one index by its local step, and
`stepThread_cases` shows the exchange of one thread that this is.  Facts about the whole pool then
follow from facts about the exchanged thread:

* `sum_exchange`: an additive quantity that the move keeps is constant over the pool;
* `sum_exchange_le`: one that the move does not raise beyond a bound stays below it;
* `forall_exchange`: a property of every thread survives if the moved thread has it;
* `getElem?_concat_cases`: a thread that is added gets the next index;
* `countP_range_le`: indices that are told apart by what they find in a list are no more than what
  they find;
* `length_le_countP`: distinct indices of such elements are no more than the elements.
-/

namespace HydraSAT.Lib

variable {σ τ β : Type*}

/-- Move the thread at index `i`. -/
def stepThread (lstep : σ → τ → β → Option (σ × τ)) (s : σ) (ts : List τ) (i : ℕ) (b : β) :
    Option (σ × List τ) :=
  (ts[i]?).bind fun t => (lstep s t b).map fun r => (r.1, ts.set i r.2)

variable {lstep : σ → τ → β → Option (σ × τ)} {s s' : σ} {ts ts' : List τ} {i : ℕ} {b : β}

/-- **Inversion.**  One thread took one local step; the threads before and after it stand still. -/
theorem stepThread_cases (h : stepThread lstep s ts i b = some (s', ts')) :
    ∃ pre t t' post, ts = pre ++ t :: post ∧ ts' = pre ++ t' :: post ∧ i = pre.length ∧
      lstep s t b = some (s', t') := by
  simp only [stepThread, Option.bind_eq_some_iff, Option.map_eq_some_iff] at h
  obtain ⟨t, ht, ⟨r, t'⟩, hl, he⟩ := h
  obtain ⟨rfl, rfl⟩ := Prod.mk.inj he
  obtain ⟨hi, hget⟩ := List.getElem?_eq_some_iff.mp ht
  refine ⟨ts.take i, t, t', ts.drop (i + 1), ?_, ?_, ?_, hl⟩
  · rw [← hget, List.getElem_cons_drop, List.take_append_drop]
  · exact List.set_eq_take_append_cons_drop.trans (if_pos hi)
  · rw [List.length_take, Nat.min_eq_left (le_of_lt hi)]

/-- A thread that can move, moves. -/
theorem stepThread_enabled {t t' : τ} (ht : ts[i]? = some t) (hl : lstep s t b = some (s', t')) :
    stepThread lstep s ts i b = some (s', ts.set i t') := by
  simp [stepThread, ht, hl]

/-- **Conservation.**  If the move trades shared quantity against thread quantity, the total over
the pool is constant. -/
theorem sum_exchange {M : Type*} [AddCommMonoid M] {x y : M} {f : τ → M} {t t' : τ}
    (h : y + f t' = x + f t) (pre post : List τ) :
    y + ((pre ++ t' :: post).map f).sum = x + ((pre ++ t :: post).map f).sum := by
  simp only [List.map_append, List.map_cons, List.sum_append, List.sum_cons]
  calc y + ((pre.map f).sum + (f t' + (post.map f).sum))
      = (y + f t') + ((pre.map f).sum + (post.map f).sum) := by abel
    _ = (x + f t) + ((pre.map f).sum + (post.map f).sum) := by rw [h]
    _ = x + ((pre.map f).sum + (f t + (post.map f).sum)) := by abel

/-- **Bounded growth.**  If the move raises the total by no more than the bound grows, the total
stays below the bound. -/
theorem sum_exchange_le {x y bx bound : ℕ} {f : τ → ℕ} {t t' : τ} {pre post : List τ}
    (h : y + f t' + bx ≤ x + f t + bound) (hle : x + ((pre ++ t :: post).map f).sum ≤ bx) :
    y + ((pre ++ t' :: post).map f).sum ≤ bound := by
  simp only [List.map_append, List.map_cons, List.sum_append, List.sum_cons] at hle ⊢
  omega

/-- **Thread-wise properties.** -/
theorem forall_exchange {P : τ → Prop} {t t' : τ} {pre post : List τ}
    (hall : ∀ u ∈ pre ++ t :: post, P u) (h : P t') : ∀ u ∈ pre ++ t' :: post, P u := by
  intro u hu
  rcases List.mem_append.mp hu with hu | hu
  · exact hall u (List.mem_append_left _ hu)
  · rcases List.mem_cons.mp hu with rfl | hu
    · exact h
    · exact hall u (List.mem_append_right _ (List.mem_cons_of_mem _ hu))

/-- A property of every thread survives the arrival of a thread that has it. -/
theorem forall_arrive {P : τ → Prop} {t : τ} (hall : ∀ u ∈ ts, P u) (h : P t) :
    ∀ u ∈ ts ++ [t], P u := by
  intro u hu
  rcases List.mem_append.mp hu with hu | hu
  · exact hall u hu
  · rw [List.mem_singleton.mp hu]
    exact h

/-- A thread that does not move stays in the pool. -/
theorem mem_exchange {pre post : List τ} {t t' u : τ} (hu : u ∈ pre ++ t :: post)
    (hne : u ≠ t) : u ∈ pre ++ t' :: post := by
  rcases List.mem_append.mp hu with hu | hu
  · exact List.mem_append_left _ hu
  · rcases List.mem_cons.mp hu with rfl | hu
    · exact absurd rfl hne
    · exact List.mem_append_right _ (List.mem_cons_of_mem _ hu)

/-- A thread that does not move stays at its index. -/
theorem getElem?_exchange {pre post : List τ} {t t' : τ} {i : ℕ} (hi : i ≠ pre.length) :
    (pre ++ t' :: post)[i]? = (pre ++ t :: post)[i]? := by
  rcases Nat.lt_or_gt_of_ne hi with hlt | hgt
  · rw [List.getElem?_append_left hlt, List.getElem?_append_left hlt]
  · obtain ⟨k, hk⟩ : ∃ k, i - pre.length = k + 1 := ⟨i - pre.length - 1, by omega⟩
    rw [List.getElem?_append_right (by omega), List.getElem?_append_right (by omega), hk]
    rfl

/-- What is added at the end gets the next index, and nothing else moves. -/
theorem getElem?_concat_cases {xs : List β} {x y : β} {i : ℕ} (h : (xs ++ [x])[i]? = some y) :
    xs[i]? = some y ∨ (i = xs.length ∧ y = x) := by
  rcases Nat.lt_or_ge i xs.length with hold | hnew
  · rw [List.getElem?_append_left hold] at h
    exact .inl h
  · have hi := (List.getElem?_eq_some_iff.mp h).1
    rw [List.length_append, List.length_singleton] at hi
    obtain rfl : i = xs.length := by omega
    rw [List.getElem?_concat_length] at h
    exact .inr ⟨rfl, (Option.some.inj h).symm⟩

/-- **Counting by what is found.**  If every index with `p` finds an element with `q` under its own
key, there are no more such indices than such elements. -/
theorem countP_range_le {γ : Type*} {p : ℕ → Bool} {q : β → Bool} {n : ℕ} {bs : List β} (f : β → γ)
    (key : ℕ → γ) (hinj : ∀ j < n, ∀ k < n, key j = key k → j = k)
    (h : ∀ j < n, p j = true → ∃ b ∈ bs, q b = true ∧ f b = key j) :
    (List.range n).countP p ≤ bs.countP q := by
  have hnodup : (((List.range n).filter p).map key).Nodup := by
    refine List.Nodup.map_on (fun j hj k hk heq => ?_) (List.nodup_range.filter _)
    exact hinj j (List.mem_range.mp (List.mem_filter.mp hj).1) k
      (List.mem_range.mp (List.mem_filter.mp hk).1) heq
  have hsub : ((List.range n).filter p).map key ⊆ (bs.filter q).map f := by
    intro k hk
    obtain ⟨j, hj, rfl⟩ := List.mem_map.mp hk
    obtain ⟨hlt, hp⟩ := List.mem_filter.mp hj
    obtain ⟨b, hb, hq, hf⟩ := h j (List.mem_range.mp hlt) hp
    exact List.mem_map.mpr ⟨b, List.mem_filter.mpr ⟨hb, hq⟩, hf⟩
  have hle := (hnodup.subperm hsub).length_le
  rwa [List.length_map, List.length_map, ← List.countP_eq_length_filter,
    ← List.countP_eq_length_filter] at hle

/-- **Counting by indices.**  Distinct indices of elements with `q` are no more than such elements. -/
theorem length_le_countP {q : β → Bool} {bs : List β} {is : List ℕ} (hnodup : is.Nodup)
    (h : ∀ i ∈ is, ∃ b, bs[i]? = some b ∧ q b = true) : is.length ≤ bs.countP q := by
  have hrange : ∀ bs : List β,
      (List.range bs.length).countP (fun i => (bs[i]?.map q).getD false) = bs.countP q := by
    intro bs
    induction bs with
    | nil => rfl
    | cons b bs ih =>
        rw [List.length_cons, List.range_succ_eq_map, List.countP_cons, List.countP_map, List.countP_cons]
        exact congrArg (· + _) ih
  have hsub : is ⊆ (List.range bs.length).filter fun i => (bs[i]?.map q).getD false := by
    intro i hi
    obtain ⟨b, hb, hq⟩ := h i hi
    refine List.mem_filter.mpr ⟨List.mem_range.mpr (List.getElem?_eq_some_iff.mp hb).1, ?_⟩
    rw [hb]
    exact hq
  rw [← hrange bs, List.countP_eq_length_filter]
  exact (hnodup.subperm hsub).length_le

/-- What one element may add to a count. -/
theorem countP_le_add_count [DecidableEq β] {p q : β → Bool} {b : β}
    (h : ∀ c, q c = true → p c = true ∨ c = b) (bs : List β) :
    bs.countP q ≤ bs.countP p + bs.count b := by
  induction bs with
  | nil => exact le_refl 0
  | cons c bs ih =>
      rw [List.countP_cons, List.countP_cons, List.count_cons]
      by_cases hq : q c = true
      · rcases h c hq with hp | rfl
        · rw [if_pos hq, if_pos hp]
          omega
        · rw [if_pos hq, beq_self_eq_true, if_pos rfl]
          omega
      · rw [if_neg hq]
        omega

end HydraSAT.Lib
