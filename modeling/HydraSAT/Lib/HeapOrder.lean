import HydraSAT.Lib.BinaryHeap
import Mathlib.Data.List.Basic
import Mathlib.Order.Lattice

/-!
# The order of a binary heap

In a heap no parent is heavier than its children.  The sifts work on a heap with a hole, whose value does
not count: what is below the hole is no lighter than what is above it.

* `push_isHeap`, `pop_isHeap`: the operations keep the order;
* `IsHeap.front`: the front is one of the lightest elements;
* `drain_sorted`, `drain_perm`: popping until nothing is left sorts.
-/

namespace HydraSAT.Lib.BinaryHeap

variable {β : Type*} {heavier : β → β → Bool} {value : β} {xs : List β} {hole : ℕ}

/-- `heavier` compares weights: two elements are comparable, and being no heavier is transitive. -/
structure Weighs (heavier : β → β → Bool) : Prop where
  total : ∀ a b, heavier a b = false ∨ heavier b a = false
  trans : ∀ a b c, heavier a b = false → heavier b c = false → heavier a c = false

theorem Weighs.refl (h : Weighs heavier) (a : β) : heavier a a = false := (h.total a a).elim id id

theorem Weighs.of_heavier (h : Weighs heavier) {a b : β} (hab : heavier a b = true) :
    heavier b a = false :=
  (h.total a b).resolve_left fun hnot => Bool.noConfusion (hab.symm.trans hnot)

/-- Any weight in a linear order will do. -/
theorem weighs_of_weight {γ : Type*} [LinearOrder γ] (weight : β → γ) :
    Weighs fun a b => decide (weight b < weight a) where
  total a b := (le_total (weight a) (weight b)).imp (fun h => decide_eq_false h.not_gt)
    fun h => decide_eq_false h.not_gt
  trans _ _ _ hab hbc := decide_eq_false fun hac =>
    of_decide_eq_false hab (lt_of_le_of_lt (le_of_not_gt (of_decide_eq_false hbc)) hac)

/-- No parent is heavier than its children. -/
def IsHeap (heavier : β → β → Bool) (xs : List β) : Prop :=
  ∀ i p c, 0 < i → xs[(i - 1) / 2]? = some p → xs[i]? = some c → heavier p c = false

/-- A heap with a hole: the pairs without the hole are in order, and what is above the hole is no heavier
than what is below it. -/
structure Holed (heavier : β → β → Bool) (xs : List β) (hole : ℕ) : Prop where
  pairs : ∀ i p c, 0 < i → i ≠ hole → (i - 1) / 2 ≠ hole → xs[(i - 1) / 2]? = some p →
    xs[i]? = some c → heavier p c = false
  across : ∀ i p c, 0 < hole → 0 < i → (i - 1) / 2 = hole → xs[(hole - 1) / 2]? = some p →
    xs[i]? = some c → heavier p c = false

/-- A hole where the value in hand may stay, or go up. -/
structure Fits (heavier : β → β → Bool) (value : β) (xs : List β) (hole : ℕ) : Prop
    extends Holed heavier xs hole where
  below : ∀ i c, 0 < i → (i - 1) / 2 = hole → xs[i]? = some c → heavier value c = false

theorem getElem?_set_cases {i j : ℕ} {a b : β} (h : (xs.set i a)[j]? = some b) :
    (j = i ∧ b = a) ∨ (j ≠ i ∧ xs[j]? = some b) := by
  rw [List.getElem?_set] at h
  split at h
  · rename_i heq
    split at h
    · exact .inl ⟨heq.symm, (Option.some.inj h).symm⟩
    · exact nomatch h
  · rename_i hne
    exact .inr ⟨Ne.symm hne, h⟩

/-! ### Towards the front -/

/-- **The value is written**, at the front or below a parent that is no heavier. -/
theorem Fits.fill (h : Fits heavier value xs hole)
    (habove : hole = 0 ∨ ∀ p, xs[(hole - 1) / 2]? = some p → heavier p value = false) :
    IsHeap heavier (xs.set hole value) := by
  intro i p c hi hp hc
  rcases getElem?_set_cases hc with ⟨rfl, rfl⟩ | ⟨hne, hc'⟩
  · rcases getElem?_set_cases hp with ⟨heq, -⟩ | ⟨-, hp'⟩
    · omega
    · exact (habove.resolve_left (by omega)) p hp'
  · rcases getElem?_set_cases hp with ⟨heq, rfl⟩ | ⟨hpar, hp'⟩
    · exact h.below i c hi heq hc'
    · exact h.pairs i p c hi hne hpar hp' hc'

/-- **The hole moves up**, past a heavier parent. -/
theorem Fits.up (hw : Weighs heavier) (h : Fits heavier value xs hole) (hpos : 0 < hole) {p : β}
    (hp : xs[(hole - 1) / 2]? = some p) (hheavy : heavier p value = true) :
    Fits heavier value (xs.set hole p) ((hole - 1) / 2) := by
  have hlt : (hole - 1) / 2 < hole := by omega
  -- the siblings of the hole are below the parent
  have hsibling : ∀ i c, 0 < i → i ≠ hole → (i - 1) / 2 = (hole - 1) / 2 → xs[i]? = some c →
      heavier p c = false := fun i c hi hne hpar hc =>
    h.pairs i p c hi hne (by omega) (by rw [hpar]; exact hp) hc
  refine ⟨⟨fun i q c hi hne hpar hq hc => ?_, fun i q c hfront hi hpar hq hc => ?_⟩,
    fun i c hi hpar hc => ?_⟩
  · rcases getElem?_set_cases hc with ⟨rfl, -⟩ | ⟨hne', hc'⟩
    · exact absurd rfl hpar
    · rcases getElem?_set_cases hq with ⟨heq, rfl⟩ | ⟨hpar', hq'⟩
      · exact h.across i q c hpos hi heq hp hc'
      · exact h.pairs i q c hi hne' hpar' hq' hc'
  · rcases getElem?_set_cases hq with ⟨heq, -⟩ | ⟨-, hq⟩
    · omega
    · have hgrand := h.pairs ((hole - 1) / 2) q p hfront (by omega) (by omega) hq hp
      rcases getElem?_set_cases hc with ⟨-, rfl⟩ | ⟨hne, hc⟩
      · exact hgrand
      · exact hw.trans _ _ _ hgrand (hsibling i c hi hne hpar hc)
  · rcases getElem?_set_cases hc with ⟨-, rfl⟩ | ⟨hne, hc⟩
    · exact hw.of_heavier hheavy
    · exact hw.trans _ _ _ (hw.of_heavier hheavy) (hsibling i c hi hne hpar hc)

theorem siftUp_isHeap (hw : Weighs heavier) (fuel : ℕ) (hfuel : hole ≤ fuel)
    (h : Fits heavier value xs hole) : IsHeap heavier (siftUp heavier value fuel xs hole) := by
  induction fuel generalizing xs hole with
  | zero => exact h.fill (.inl (Nat.le_zero.mp hfuel))
  | succ fuel ih =>
      rw [siftUp]
      split
      · rename_i hnone
        exact h.fill (.inr fun p hp => absurd (hp.symm.trans hnone) (Option.some_ne_none p))
      · rename_i p hp
        split
        · rename_i hmove
          exact ih (by omega) (h.up hw hmove.1 hp hmove.2)
        · rename_i hstay
          refine h.fill ?_
          rcases Nat.eq_zero_or_pos hole with hzero | hpos
          · exact .inl hzero
          · refine .inr fun q hq => ?_
            rw [← Option.some.inj (hp.symm.trans hq)]
            exact Bool.eq_false_iff.mpr fun hheavy => hstay ⟨hpos, hheavy⟩

/-- **Pushing keeps the order.** -/
theorem push_isHeap (hw : Weighs heavier) (h : IsHeap heavier xs) (value : β) :
    IsHeap heavier (push heavier xs value) := by
  have hold : ∀ i (c : β), i ≠ xs.length → (xs ++ [value])[i]? = some c → xs[i]? = some c := by
    intro i c hne hc
    have hlt := (List.getElem?_eq_some_iff.mp hc).1
    rw [List.length_append, List.length_singleton] at hlt
    rwa [List.getElem?_append_left (by omega)] at hc
  have hnone : ∀ i (c : β), 0 < i → (i - 1) / 2 = xs.length → (xs ++ [value])[i]? ≠ some c := by
    intro i c hi hpar hc
    have hlt := (List.getElem?_eq_some_iff.mp hc).1
    rw [List.length_append, List.length_singleton] at hlt
    omega
  refine siftUp_isHeap hw _ (Nat.le_refl _) ⟨⟨fun i p c hi hne hpar hp hc => ?_, ?_⟩, ?_⟩
  · exact h i p c hi (hold _ p hpar hp) (hold i c hne hc)
  · exact fun i p c _ hi hpar _ hc => absurd hc (hnone i c hi hpar)
  · exact fun i c hi hpar hc => absurd hc (hnone i c hi hpar)

/-! ### Towards the end -/

/-- **The hole moves down** to a child that no sibling is lighter than. -/
theorem Holed.down (h : Holed heavier xs hole) {j : ℕ} {y : β} (hj : 0 < j) (hpar : (j - 1) / 2 = hole)
    (hy : xs[j]? = some y)
    (hleast : ∀ i c, 0 < i → i ≠ j → (i - 1) / 2 = hole → xs[i]? = some c → heavier y c = false) :
    Holed heavier (xs.set hole y) j := by
  refine ⟨fun i p c hi hne hpar' hp hc => ?_, fun i p c _ hi hpar' hp hc => ?_⟩
  · rcases getElem?_set_cases hc with ⟨rfl, rfl⟩ | ⟨hne', hc'⟩
    · rcases getElem?_set_cases hp with ⟨heq, -⟩ | ⟨-, hp'⟩
      · omega
      · exact h.across j p c hi hj hpar hp' hy
    · rcases getElem?_set_cases hp with ⟨heq, rfl⟩ | ⟨hpar'', hp'⟩
      · exact hleast i c hi hne heq hc'
      · exact h.pairs i p c hi hne' hpar'' hp' hc'
  · rcases getElem?_set_cases hc with ⟨rfl, -⟩ | ⟨hne, hc'⟩
    · omega
    · rcases getElem?_set_cases hp with ⟨-, rfl⟩ | ⟨hnot, -⟩
      · exact h.pairs i p c hi hne (by omega) (by rw [hpar']; exact hy) hc'
      · exact absurd hpar hnot

/-- The loop ends at a hole without a second child. -/
theorem siftDown_holed (hw : Weighs heavier) (fuel : ℕ) (hfuel : xs.length ≤ hole + fuel)
    (h : Holed heavier xs hole) :
    Holed heavier (siftDown heavier fuel xs hole).1 (siftDown heavier fuel xs hole).2 ∧
      (siftDown heavier fuel xs hole).1.length ≤ 2 * (siftDown heavier fuel xs hole).2 + 2 := by
  induction fuel generalizing xs hole with
  | zero => exact ⟨h, by show xs.length ≤ 2 * hole + 2; omega⟩
  | succ fuel ih =>
      rw [siftDown]
      split
      · rename_i l r hl hr
        split
        · rename_i hheavy
          refine ih (by rw [List.length_set]; omega) (h.down (by omega) (by omega) hl ?_)
          intro i c hi hne hpar hc
          obtain rfl : i = 2 * hole + 2 := by omega
          rw [← Option.some.inj (hr.symm.trans hc)]
          exact hw.of_heavier hheavy
        · rename_i hlight
          refine ih (by rw [List.length_set]; omega) (h.down (by omega) (by omega) hr ?_)
          intro i c hi hne hpar hc
          obtain rfl : i = 2 * hole + 1 := by omega
          rw [← Option.some.inj (hl.symm.trans hc)]
          exact Bool.eq_false_iff.mpr hlight
      · rename_i hstop
        refine ⟨h, ?_⟩
        by_contra hlong
        have hlong : 2 * hole + 2 < xs.length := Nat.lt_of_not_le hlong
        exact hstop _ _ (List.getElem?_eq_getElem (Nat.lt_of_succ_lt hlong))
          (List.getElem?_eq_getElem hlong)

/-- The hole becomes a leaf. -/
theorem siftLast_fits {p : List β × ℕ} (h : Holed heavier p.1 p.2)
    (hlast : p.1.length ≤ 2 * p.2 + 2) (value : β) :
    Fits heavier value (siftLast p).1 (siftLast p).2 := by
  have hleaf : ∀ {ys : List β} {k : ℕ}, ys.length ≤ 2 * k + 1 → Holed heavier ys k →
      Fits heavier value ys k := fun hlen hholed => ⟨hholed, fun i c hi hpar hc => by
    have hlt := (List.getElem?_eq_some_iff.mp hc).1
    omega⟩
  unfold siftLast
  split
  · rename_i l hl
    have hlt := (List.getElem?_eq_some_iff.mp hl).1
    rw [if_pos (by omega)]
    refine hleaf (by rw [List.length_set]; omega) (h.down (by omega) (by omega) hl ?_)
    intro i c hi hne hpar hc
    have hlt' := (List.getElem?_eq_some_iff.mp hc).1
    omega
  · rename_i hnone
    exact hleaf (List.getElem?_eq_none_iff.mp hnone) h

theorem adjust_isHeap (hw : Weighs heavier) (h : IsHeap heavier xs) (value : β) :
    IsHeap heavier (adjust heavier value xs) := by
  have hholed : Holed heavier xs 0 :=
    ⟨fun i p c hi _ _ => h i p c hi, fun _ _ _ hpos => absurd hpos (Nat.lt_irrefl 0)⟩
  obtain ⟨hdown, hlast⟩ := siftDown_holed hw xs.length (by omega) hholed
  exact siftUp_isHeap hw _ (Nat.le_refl _) (siftLast_fits hdown hlast value)

/-- **Popping keeps the order.** -/
theorem pop_isHeap (hw : Weighs heavier) (h : IsHeap heavier xs) : IsHeap heavier (pop heavier xs) := by
  match xs with
  | [] => exact h
  | [_] => exact fun i p c _ hp => nomatch hp
  | x :: y :: rest =>
      refine adjust_isHeap hw (fun i p c hi hp hc => ?_) _
      have hinit : ∀ k (d : β), (x :: y :: rest).dropLast[k]? = some d →
          (x :: y :: rest)[k]? = some d := fun k d hd => by
        obtain ⟨hk, rfl⟩ := List.getElem?_eq_some_iff.mp hd
        rw [List.getElem_dropLast]
        exact List.getElem?_eq_getElem _
      exact h i p c hi (hinit _ p hp) (hinit i c hc)

/-! ### What comes out -/

/-- **The front is one of the lightest.** -/
theorem IsHeap.front (hw : Weighs heavier) {x : β} (h : IsHeap heavier (x :: xs)) :
    ∀ y ∈ x :: xs, heavier x y = false := by
  have hall : ∀ (i : ℕ) (y : β), (x :: xs)[i]? = some y → heavier x y = false := by
    intro i
    induction i using Nat.strongRecOn with
    | _ i ih =>
        intro y hy
        rcases Nat.eq_zero_or_pos i with rfl | hpos
        · rw [← Option.some.inj hy]
          exact hw.refl x
        · have hlt := (List.getElem?_eq_some_iff.mp hy).1
          obtain ⟨p, hp⟩ : ∃ p, (x :: xs)[(i - 1) / 2]? = some p :=
            ⟨_, List.getElem?_eq_getElem (by omega)⟩
          exact hw.trans _ _ _ (ih _ (by omega) p hp) (h i p y hpos hp hy)
  intro y hy
  obtain ⟨i, hi⟩ := List.getElem?_of_mem hy
  exact hall i y hi

/-- Pop the heap into a list, front first; the first argument bounds the number of pops. -/
def drain (heavier : β → β → Bool) : ℕ → List β → List β
  | 0, _ => []
  | _ + 1, [] => []
  | fuel + 1, x :: xs => x :: drain heavier fuel (pop heavier (x :: xs))

/-- Draining pops everything. -/
theorem drain_perm (fuel : ℕ) (xs : List β) (hfuel : xs.length ≤ fuel) :
    (drain heavier fuel xs).Perm xs := by
  induction fuel generalizing xs with
  | zero =>
      rw [List.length_eq_zero_iff.mp (Nat.le_zero.mp hfuel)]
      exact List.Perm.refl _
  | succ fuel ih =>
      cases xs with
      | nil => exact List.Perm.refl _
      | cons x xs =>
          have hpop : (pop heavier (x :: xs)).Perm xs := pop_perm x xs
          have hlen := hpop.length_eq
          rw [List.length_cons] at hfuel
          exact (((ih _ (by omega)).trans hpop).cons x)

/-- **Draining sorts.** -/
theorem drain_sorted (hw : Weighs heavier) (fuel : ℕ) (h : IsHeap heavier xs)
    (hfuel : xs.length ≤ fuel) :
    (drain heavier fuel xs).Pairwise fun a b => heavier a b = false := by
  induction fuel generalizing xs with
  | zero => exact List.Pairwise.nil
  | succ fuel ih =>
      cases xs with
      | nil => exact List.Pairwise.nil
      | cons x xs =>
          have hpop : (pop heavier (x :: xs)).Perm xs := pop_perm x xs
          have hlen := hpop.length_eq
          rw [List.length_cons] at hfuel
          refine List.pairwise_cons.mpr ⟨fun y hy => ?_, ih (pop_isHeap hw h) (by omega)⟩
          have hmem := hpop.mem_iff.mp ((drain_perm fuel _ (by omega)).mem_iff.mp hy)
          exact h.front hw y (List.mem_cons_of_mem x hmem)

end HydraSAT.Lib.BinaryHeap
