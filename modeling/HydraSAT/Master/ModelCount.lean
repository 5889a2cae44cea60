import Mathlib.Algebra.Order.BigOperators.Group.List
import HydraSAT.Lib.Counting
import HydraSAT.Master.Splitting

/-!
# Splitting and the model count

A worker counts the models of a cube over the variables its header declares.  Splitting on one of
these keeps the count; the fallback of `SplitCubeSmart`, once all occurring variables are in the
cube, takes the successor of its largest variable, which need not be declared.

* `SplitRoom`: some occurring variable is not in the cube, or there is a declared variable above
  those of the cube;
* `splitSound_iff`: a split is sound exactly under this condition;
* `split_counts_iff`: the counts over the initial cubes sum to the model count exactly if every
  split of a cube with models was sound.
-/

namespace HydraSAT.Master

open HydraSAT.Lib

/-- Every literal is of a variable in `1..n`. -/
def WellFormed (n : ℕ) (clauses : List Clause) : Prop :=
  ∀ clause ∈ clauses, ∀ lit ∈ clause, Declared n lit

instance (n : ℕ) (clauses : List Clause) : Decidable (WellFormed n clauses) :=
  inferInstanceAs (Decidable (∀ clause ∈ clauses, ∀ lit ∈ clause, Declared n lit))

/-- The cubes that splits reach from the empty cube. -/
inductive SplitReachable (clauses : List Clause) : Cube → Prop
  | root : SplitReachable clauses []
  | split {cube child : Cube} {entries : List (ℤ × ℕ)} : SplitReachable clauses cube →
      MapOrder clauses entries → child ∈ splitCubeSmart cube entries → SplitReachable clauses child

/-- The variable of the literal is in the cube. -/
def Mentions (cube : Cube) (lit : ℤ) : Prop := ∃ l ∈ cube, l.natAbs = lit.natAbs

/-- There is a declared variable to branch on: an occurring one off the cube, or one above all
variables of the cube. -/
def SplitRoom (n : ℕ) (clauses : List Clause) (cube : Cube) : Prop :=
  (∃ clause ∈ clauses, ∃ lit ∈ clause, ¬Mentions cube lit) ∨
    (0 < n ∧ ∀ l ∈ cube, l.natAbs < n)

/-- The split branches on a declared variable that is not in the cube, and keeps the count. -/
def SplitSound (n : ℕ) (clauses : List Clause) (cube : Cube) (entries : List (ℤ × ℕ)) : Prop :=
  1 ≤ branchVar cube entries ∧ branchVar cube entries ≤ n ∧
    ¬Mentions cube (branchVar cube entries) ∧
    modelCount n clauses cube = ((splitCubeSmart cube entries).map (modelCount n clauses)).sum

variable {n : ℕ} {clauses : List Clause} {cube : Cube} {entries : List (ℤ × ℕ)}

theorem WellFormed.smallLits (hn : n ≤ 2147483647) (hwf : WellFormed n clauses) :
    SmallLits clauses := by
  intro clause hclause lit hlit
  obtain ⟨hpos, hle⟩ := hwf clause hclause lit hlit
  omega

/-! ### Reachable cubes -/

/-- What overflow leaves behind: literals are register values, and the least one follows only the
largest variable. -/
structure CubeOk (cube : Cube) : Prop where
  range : ∀ l ∈ cube, InInt32 l
  least : -2147483648 ∈ cube → ∃ l ∈ cube, l.natAbs = 2147483647

theorem CubeOk.varOf_le (h : CubeOk cube) {l : ℤ} (hl : l ∈ cube) : varOf l ≤ 2147483647 :=
  (varOf_inRange (h.range l hl)).2

theorem CubeOk.maxVar_le (h : CubeOk cube) : maxVar cube ≤ 2147483647 := by
  rcases maxVar_attained cube with hzero | ⟨l, hl, heq⟩
  · omega
  · exact heq ▸ h.varOf_le hl

/-- Off the least value, the variable of a literal is its magnitude. -/
theorem CubeOk.varOf_eq (h : CubeOk cube) {l : ℤ} (hl : l ∈ cube) (hmin : l ≠ -2147483648) :
    varOf l = l.natAbs := varOf_eq_natAbs (h.range l hl) hmin

theorem CubeOk.inCube_iff (h : CubeOk cube) {v : ℤ} (hpos : 0 < v) (hle : v ≤ 2147483647) :
    inCube cube v = true ↔ Mentions cube v := by
  rw [mem_inCube]
  constructor
  · rintro ⟨l, hl, hv⟩
    by_cases hmin : l = -2147483648
    · have hbad : varOf l = -2147483648 := by rw [hmin]; decide
      omega
    · have heq := h.varOf_eq hl hmin
      exact ⟨l, hl, by omega⟩
  · rintro ⟨l, hl, hv⟩
    by_cases hmin : l = -2147483648
    · rw [hmin] at hv
      omega
    · have heq := h.varOf_eq hl hmin
      exact ⟨l, hl, by omega⟩

/-- The values the branching variable can take: a variable of the register, or the wrapped successor
of the largest one. -/
theorem branchVar_range (hn : n ≤ 2147483647) (hwf : WellFormed n clauses) (hok : CubeOk cube)
    (horder : MapOrder clauses entries) :
    (0 < branchVar cube entries ∧ branchVar cube entries ≤ 2147483647) ∨
      (branchVar cube entries = -2147483648 ∧ maxVar cube = 2147483647) := by
  rcases branchVar_cases horder cube with ⟨hocc, -⟩ | ⟨-, heq⟩
  · exact Or.inl ((hwf.smallLits hn).occurs hocc)
  · have hge := maxVar_nonneg cube
    have hle := hok.maxVar_le
    by_cases hmax : maxVar cube = 2147483647
    · right
      refine ⟨?_, hmax⟩
      rw [heq, hmax]
      decide
    · left
      rw [heq, int32_of_range ⟨by omega, by omega⟩]
      omega

theorem CubeOk.split (hn : n ≤ 2147483647) (hwf : WellFormed n clauses) (hok : CubeOk cube)
    (horder : MapOrder clauses entries) {child : Cube} (hchild : child ∈ splitCubeSmart cube entries) :
    CubeOk child := by
  obtain ⟨l, hl, rfl⟩ : ∃ l, (l = branchVar cube entries ∨ l = int32 (-branchVar cube entries)) ∧
      child = cube ++ [l] := by
    rcases List.mem_cons.mp hchild with rfl | hchild
    · exact ⟨_, Or.inl rfl, rfl⟩
    · exact ⟨_, Or.inr rfl, List.mem_singleton.mp hchild⟩
  have hrange := branchVar_range hn hwf hok horder
  have hneg : l = -2147483648 → maxVar cube = 2147483647 := by
    intro hmin
    rcases hrange with ⟨hpos, hle⟩ | ⟨-, hmax⟩
    · rcases hl with rfl | rfl
      · omega
      · rw [int32_neg ⟨by omega, by omega⟩ (by omega)] at hmin
        omega
    · exact hmax
  refine ⟨fun x hx => ?_, fun hmem => ?_⟩
  · rcases List.mem_append.mp hx with hx | hx
    · exact hok.range x hx
    · rw [List.mem_singleton.mp hx]
      rcases hl with rfl | rfl
      · rcases hrange with ⟨hpos, hle⟩ | ⟨heq, -⟩
        · exact ⟨by omega, hle⟩
        · rw [heq]
          exact ⟨by omega, by omega⟩
      · exact int32_inRange _
  · have hmax : -2147483648 ∈ cube ∨ maxVar cube = 2147483647 := by
      rcases List.mem_append.mp hmem with hmem | hmem
      · exact Or.inl hmem
      · exact Or.inr (hneg (List.mem_singleton.mp hmem).symm)
    obtain ⟨x, hx, hxv⟩ : ∃ x ∈ cube, x.natAbs = 2147483647 := by
      rcases hmax with hmem | hmax
      · exact hok.least hmem
      · rcases maxVar_attained cube with hzero | ⟨x, hx, heq⟩
        · omega
        · refine ⟨x, hx, ?_⟩
          by_cases hmin : x = -2147483648
          · have hbad : varOf x = -2147483648 := by rw [hmin]; decide
            omega
          · have hv := hok.varOf_eq hx hmin
            omega
    exact ⟨x, List.mem_append_left _ hx, hxv⟩

theorem SplitReachable.cubeOk (hn : n ≤ 2147483647) (hwf : WellFormed n clauses)
    (h : SplitReachable clauses cube) : CubeOk cube := by
  induction h with
  | root => exact ⟨by simp, by simp⟩
  | split _ horder hchild ih => exact ih.split hn hwf horder hchild

/-! ### The branching variable -/

theorem occurs_of_mem (hn : n ≤ 2147483647) (hwf : WellFormed n clauses) {clause : Clause} {lit : ℤ}
    (hclause : clause ∈ clauses) (hlit : lit ∈ clause) : Occurs clauses lit.natAbs := by
  obtain ⟨heq, hpos, -⟩ := (hwf.smallLits hn).varOf hclause hlit
  exact ⟨by omega, clause, hclause, lit, hlit, heq⟩

theorem Mentions.of_natAbs {lit : ℤ} (h : Mentions cube (lit.natAbs : ℤ)) : Mentions cube lit := by
  obtain ⟨l, hl, heq⟩ := h
  exact ⟨l, hl, by rwa [Int.natAbs_natCast] at heq⟩

/-- Where there is room, the branching variable is declared and new. -/
theorem SplitRoom.branchVar (hroom : SplitRoom n clauses cube) (hn : n ≤ 2147483647)
    (hwf : WellFormed n clauses) (hok : CubeOk cube) (horder : MapOrder clauses entries) :
    1 ≤ branchVar cube entries ∧ branchVar cube entries ≤ n ∧
      ¬Mentions cube (branchVar cube entries) := by
  rcases branchVar_cases horder cube with ⟨hocc, hoff⟩ | ⟨hall, heq⟩
  · obtain ⟨hpos, hle⟩ := (hwf.smallLits hn).occurs hocc
    obtain ⟨-, clause, hclause, lit, hlit, hv⟩ := hocc
    have hdecl := hwf clause hclause lit hlit
    have hvar := ((hwf.smallLits hn).varOf hclause hlit).1
    unfold Declared at hdecl
    refine ⟨by omega, by omega, fun hmem => ?_⟩
    rw [(hok.inCube_iff hpos hle).mpr hmem] at hoff
    exact Bool.noConfusion hoff
  · have hge := maxVar_nonneg cube
    rcases hroom with ⟨clause, hclause, lit, hlit, hoff⟩ | ⟨hpos, hbelow⟩
    · have hsmall := (hwf.smallLits hn).varOf hclause hlit
      have hin := hall _ (occurs_of_mem hn hwf hclause hlit)
      exact absurd ((hok.inCube_iff (by omega) (by omega)).mp hin).of_natAbs hoff
    · have hlt : maxVar cube < n := by
        rcases maxVar_attained cube with hzero | ⟨l, hl, hv⟩
        · omega
        · have hln := hbelow l hl
          have hvar := hok.varOf_eq hl (by rintro rfl; omega)
          omega
      rw [heq, int32_of_range ⟨by omega, by omega⟩]
      refine ⟨by omega, by omega, ?_⟩
      rintro ⟨l, hl, hv⟩
      have hln := hbelow l hl
      have hvar := hok.varOf_eq hl (by rintro rfl; omega)
      have hmax := varOf_le_maxVar hl
      omega

/-- Where there is none, the branching variable is not declared. -/
theorem branchVar_undeclared (hroom : ¬SplitRoom n clauses cube) (hn : n ≤ 2147483647)
    (hwf : WellFormed n clauses) (hok : CubeOk cube) (horder : MapOrder clauses entries) :
    ¬(1 ≤ branchVar cube entries ∧ branchVar cube entries ≤ n) := by
  obtain ⟨hmentions, htop⟩ := not_or.mp hroom
  rintro ⟨hlow, hhigh⟩
  rcases branchVar_cases horder cube with ⟨hocc, hoff⟩ | ⟨-, heq⟩
  · obtain ⟨hpos, hle⟩ := (hwf.smallLits hn).occurs hocc
    obtain ⟨-, clause, hclause, lit, hlit, hv⟩ := hocc
    have hvar := ((hwf.smallLits hn).varOf hclause hlit).1
    by_cases hmem : Mentions cube lit
    · have hmem' : Mentions cube (branchVar cube entries) := by
        obtain ⟨l, hl, heq⟩ := hmem
        exact ⟨l, hl, by omega⟩
      rw [(hok.inCube_iff hpos hle).mpr hmem'] at hoff
      exact Bool.noConfusion hoff
    · exact hmentions ⟨clause, hclause, lit, hlit, hmem⟩
  · obtain ⟨x, hx, hmin, hxn⟩ : ∃ x ∈ cube, x ≠ -2147483648 ∧ n ≤ x.natAbs := by
      by_contra hnone
      refine htop ⟨by omega, fun l hl => ?_⟩
      by_contra hln
      by_cases hmin : l = -2147483648
      · obtain ⟨y, hy, hyv⟩ := hok.least (hmin ▸ hl)
        exact hnone ⟨y, hy, by rintro rfl; omega, by omega⟩
      · exact hnone ⟨l, hl, hmin, by omega⟩
    have hvar := hok.varOf_eq hx hmin
    have hmax := varOf_le_maxVar hx
    have hle := hok.maxVar_le
    by_cases htop' : maxVar cube = 2147483647
    · have hwrap : int32 (maxVar cube + 1) = -2147483648 := by rw [htop']; decide
      omega
    · rw [int32_of_range ⟨by omega, by omega⟩] at heq
      omega

/-! ### The counts of the two children -/

theorem childSum_of_room (hroom : SplitRoom n clauses cube) (hn : n ≤ 2147483647)
    (hwf : WellFormed n clauses) (hok : CubeOk cube) (horder : MapOrder clauses entries) :
    ((splitCubeSmart cube entries).map (modelCount n clauses)).sum = modelCount n clauses cube := by
  obtain ⟨hlow, hhigh, -⟩ := hroom.branchVar hn hwf hok horder
  have hdecl : Declared n (branchVar cube entries) := ⟨by omega, by omega⟩
  rw [splitCubeSmart, int32_neg ⟨by omega, by omega⟩ (by omega), modelCount_split hdecl]
  simp

theorem childSum_of_no_room (hroom : ¬SplitRoom n clauses cube) (hn : n ≤ 2147483647)
    (hwf : WellFormed n clauses) (hok : CubeOk cube) (horder : MapOrder clauses entries) :
    ((splitCubeSmart cube entries).map (modelCount n clauses)).sum = 0 := by
  have hout := branchVar_undeclared hroom hn hwf hok horder
  have hrange := branchVar_range hn hwf hok horder
  have hpos : ¬Declared n (branchVar cube entries) := by
    unfold Declared
    omega
  have hneg : ¬Declared n (int32 (-branchVar cube entries)) := by
    rcases hrange with ⟨hv, hle⟩ | ⟨heq, -⟩
    · rw [int32_neg ⟨by omega, by omega⟩ (by omega)]
      exact fun h => hpos (neg_neg (branchVar cube entries) ▸ h.neg)
    · have hwrap : int32 (-branchVar cube entries) = -2147483648 := by rw [heq]; decide
      rw [hwrap]
      unfold Declared
      omega
  rw [splitCubeSmart, List.map_cons, List.map_singleton, modelCount_undeclared hpos,
    modelCount_undeclared hneg]
  rfl

/-- **A split is sound exactly if there is room for it.** -/
theorem splitSound_iff (hn : n ≤ 2147483647) (hwf : WellFormed n clauses) (hok : CubeOk cube)
    (horder : MapOrder clauses entries) :
    SplitSound n clauses cube entries ↔ SplitRoom n clauses cube := by
  constructor
  · rintro ⟨hlow, hhigh, -, -⟩
    by_contra hroom
    exact branchVar_undeclared hroom hn hwf hok horder ⟨hlow, hhigh⟩
  · intro hroom
    obtain ⟨hlow, hhigh, hnew⟩ := hroom.branchVar hn hwf hok horder
    exact ⟨hlow, hhigh, hnew, (childSum_of_room hroom hn hwf hok horder).symm⟩

/-- The children have as many models as their parent exactly if there is room or nothing to lose. -/
theorem childSum_eq_iff (hn : n ≤ 2147483647) (hwf : WellFormed n clauses) (hok : CubeOk cube)
    (horder : MapOrder clauses entries) :
    ((splitCubeSmart cube entries).map (modelCount n clauses)).sum = modelCount n clauses cube ↔
      SplitRoom n clauses cube ∨ modelCount n clauses cube = 0 := by
  by_cases hroom : SplitRoom n clauses cube
  · exact iff_of_true (childSum_of_room hroom hn hwf hok horder) (Or.inl hroom)
  · rw [childSum_of_no_room hroom hn hwf hok horder]
    exact ⟨fun h => Or.inr h.symm, fun h => (h.resolve_left hroom).symm⟩

theorem childSum_le (hn : n ≤ 2147483647) (hwf : WellFormed n clauses) (hok : CubeOk cube)
    (horder : MapOrder clauses entries) :
    ((splitCubeSmart cube entries).map (modelCount n clauses)).sum ≤ modelCount n clauses cube := by
  by_cases hroom : SplitRoom n clauses cube
  · exact (childSum_of_room hroom hn hwf hok horder).le
  · rw [childSum_of_no_room hroom hn hwf hok horder]
    exact Nat.zero_le _

/-! ### The initial rounds -/

/-- A round does not raise the sum of the counts, and keeps it exactly if it keeps every count. -/
theorem roundSum {order : ℕ → List (ℤ × ℕ)} (hn : n ≤ 2147483647) (hwf : WellFormed n clauses)
    (horder : ∀ k, MapOrder clauses (order k)) (k : ℕ) (cubes : List Cube)
    (hok : ∀ cube ∈ cubes, CubeOk cube) :
    ((splitRound order k cubes).map (modelCount n clauses)).sum ≤
        (cubes.map (modelCount n clauses)).sum ∧
      (((splitRound order k cubes).map (modelCount n clauses)).sum =
          (cubes.map (modelCount n clauses)).sum ↔
        ∀ cube ∈ cubes, SplitRoom n clauses cube ∨ modelCount n clauses cube = 0) := by
  induction cubes generalizing k with
  | nil => exact ⟨le_refl _, iff_of_true rfl (by simp)⟩
  | cons cube cubes ih =>
      have hhead := hok cube List.mem_cons_self
      obtain ⟨hle, hiff⟩ := ih (k + 1) fun c hc => hok c (List.mem_cons_of_mem cube hc)
      have hround : splitRound order k (cube :: cubes) =
          splitCubeSmart cube (order k) ++ splitRound order (k + 1) cubes := by
        unfold splitRound
        rw [List.zipIdx_cons, List.flatMap_cons]
      have hchild := childSum_le hn hwf hhead (horder k)
      have hchild' := childSum_eq_iff hn hwf hhead (horder k)
      rw [hround, List.map_append, List.sum_append, List.map_cons, List.sum_cons,
        List.forall_mem_cons, ← hchild', ← hiff]
      exact ⟨by omega, by omega⟩

theorem initialRounds_reachable {order : ℕ → List (ℤ × ℕ)}
    (horder : ∀ k, MapOrder clauses (order k)) (r : ℕ) :
    ∀ cube ∈ initialRounds order r, SplitReachable clauses cube := by
  induction r with
  | zero =>
      intro cube hcube
      rw [List.mem_singleton.mp hcube]
      exact .root
  | succ r ih =>
      intro child hchild
      obtain ⟨⟨cube, k⟩, hmem, hchild⟩ := List.mem_flatMap.mp hchild
      exact .split (ih cube (List.fst_mem_of_mem_zipIdx hmem)) (horder k) hchild

/-- The sum of the counts after `r` rounds. -/
theorem roundsSum {order : ℕ → List (ℤ × ℕ)} (hn : n ≤ 2147483647) (hwf : WellFormed n clauses)
    (horder : ∀ k, MapOrder clauses (order k)) (r : ℕ) :
    ((initialRounds order r).map (modelCount n clauses)).sum ≤ modelCount n clauses [] ∧
      (((initialRounds order r).map (modelCount n clauses)).sum = modelCount n clauses [] ↔
        ∀ q < r, ∀ cube ∈ initialRounds order q,
          SplitRoom n clauses cube ∨ modelCount n clauses cube = 0) := by
  induction r with
  | zero => exact ⟨le_refl _, iff_of_true rfl (by simp)⟩
  | succ r ih =>
      obtain ⟨hle, hiff⟩ := ih
      have hok : ∀ cube ∈ initialRounds order r, CubeOk cube := fun cube hcube =>
        (initialRounds_reachable horder r cube hcube).cubeOk hn hwf
      obtain ⟨hround, hround'⟩ := roundSum hn hwf horder (2 ^ r - 1) (initialRounds order r) hok
      rw [initialRounds, Nat.forall_lt_succ_right, ← hiff, ← hround']
      exact ⟨by omega, by omega⟩

/-- **When splitting keeps the model count.**  The split of a reachable cube is sound exactly if there
is room for it, and the counts of the initial cubes sum to the model count exactly if every cube
with models that the rounds split had room. -/
theorem split_counts_iff (hn : n ≤ 2147483647) (hwf : WellFormed n clauses) :
    (∀ cube entries, SplitReachable clauses cube → MapOrder clauses entries →
        (SplitSound n clauses cube entries ↔ SplitRoom n clauses cube)) ∧
      ∀ order : ℕ → List (ℤ × ℕ), (∀ k, MapOrder clauses (order k)) →
        (((initialCubes order).map (modelCount n clauses)).sum = modelCount n clauses [] ↔
          ∀ r < 6, ∀ cube ∈ initialRounds order r,
            SplitRoom n clauses cube ∨ modelCount n clauses cube = 0) :=
  ⟨fun _ _ hreach horder => splitSound_iff hn hwf (hreach.cubeOk hn hwf) horder,
    fun _ horder => (roundsSum hn hwf horder 6).2⟩

/-- One clause over one of seven variables: the fallback finds declared variables in every round. -/
theorem split_counts_iff_seven :
    ((initialCubes fun _ => freqTable [[1]]).map (modelCount 7 [[1]])).sum = modelCount 7 [[1]] [] := by
  refine ((split_counts_iff (by decide) (by decide)).2 _ fun _ => List.Perm.refl _).mpr ?_
  have hbelow : ∀ r < 6, ∀ cube ∈ initialRounds (fun _ => freqTable [[1]]) r, ∀ l ∈ cube,
      l.natAbs < 7 := by decide
  exact fun r hr cube hcube => Or.inl (Or.inr ⟨by decide, hbelow r hr cube hcube⟩)

/-- **A split beyond the header.**  One variable and one clause: once the variable is in the cube, the
next split branches on variable 2, and the initial cubes have no models at all. -/
theorem splits_beyond_header :
    WellFormed 1 [[1]] ∧ SplitReachable [[1]] [1] ∧ MapOrder [[1]] (freqTable [[1]]) ∧
      branchVar [1] (freqTable [[1]]) = 2 ∧ ¬SplitSound 1 [[1]] [1] (freqTable [[1]]) ∧
      ((initialCubes fun _ => freqTable [[1]]).map (modelCount 1 [[1]])).sum ≠ modelCount 1 [[1]] [] := by
  have hbranch : branchVar [1] (freqTable [[1]]) = 2 := by decide
  refine ⟨by decide, ?_, List.Perm.refl _, hbranch, ?_, by decide +kernel⟩
  · exact .split .root (List.Perm.refl (freqTable [[1]])) (by decide)
  · rintro ⟨-, hle, -⟩
    rw [hbranch] at hle
    exact absurd hle (by decide)

end HydraSAT.Master
