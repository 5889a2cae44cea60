import Mathlib.Data.Prod.Lex
import HydraSAT.Lib.Dimacs
import HydraSAT.Lib.FixedWidth
import HydraSAT.Lib.Selection

/-!
# Splitting a cube

The splitter of `task_manager.go` and the six initial rounds of `main.go`.  Literals are `int32`
values held as integers: `-lit` and `maxVar + 1` are computed with the wrap of the register.

The frequency table is a Go map, and `range` visits its entries in an unspecified order, anew on
every call.  `freqTable` is the table; `splitCubeSmart` takes the entries in the order the loop
happened to see them, and a caller may pass any permutation of the table (`MapOrder`).
-/

namespace HydraSAT.Master

open HydraSAT.Lib

/-- `v := lit; if v < 0 { v = -v }`. -/
def varOf (lit : ℤ) : ℤ := if lit < 0 then int32 (-lit) else lit

/-- `freq[v]++`. -/
def bump (v : ℤ) : List (ℤ × ℕ) → List (ℤ × ℕ)
  | [] => [(v, 1)]
  | (w, n) :: rest => if w = v then (w, n + 1) :: rest else (w, n) :: bump v rest

/-- One turn of the tally loop; a stray `0` is skipped. -/
def tally (freq : List (ℤ × ℕ)) (lit : ℤ) : List (ℤ × ℕ) :=
  if varOf lit = 0 then freq else bump (varOf lit) freq

/-- The tally loop: how often each variable appears across all clauses. -/
def freqTable (clauses : List Clause) : List (ℤ × ℕ) :=
  clauses.foldl (fun freq clause => clause.foldl tally freq) []

/-- `entries` is an order in which `range freq` may visit the table. -/
def MapOrder (clauses : List Clause) (entries : List (ℤ × ℕ)) : Prop :=
  entries.Perm (freqTable clauses)

instance (clauses : List Clause) (entries : List (ℤ × ℕ)) : Decidable (MapOrder clauses entries) :=
  inferInstanceAs (Decidable (List.Perm _ _))

/-- The set `inCube` of variables already committed. -/
def inCube (cube : Cube) (v : ℤ) : Bool := (cube.map varOf).contains v

/-- One turn of the selection loop; ties go to the higher variable. -/
def pickStep (cube : Cube) (best e : ℤ × ℕ) : ℤ × ℕ :=
  if inCube cube e.1 then best
  else if best.2 < e.2 ∨ (e.2 = best.2 ∧ best.1 < e.1) then e
  else best

/-- The selection loop, from `bestVar = 0`, `bestFreq = 0`. -/
def pickBest (cube : Cube) (entries : List (ℤ × ℕ)) : ℤ × ℕ :=
  entries.foldl (pickStep cube) (0, 0)

/-- One turn of the fallback's loop for the largest variable. -/
def maxStep (m lit : ℤ) : ℤ := if m < varOf lit then varOf lit else m

/-- The largest variable of the cube, `0` for the empty cube. -/
def maxVar (cube : Cube) : ℤ := cube.foldl maxStep 0

/-- `bestVar` after the fallback. -/
def branchVar (cube : Cube) (entries : List (ℤ × ℕ)) : ℤ :=
  if (pickBest cube entries).1 = 0 then int32 (maxVar cube + 1) else (pickBest cube entries).1

/-- `SplitCubeSmart`, on the entries in the order its loop visits them. -/
def splitCubeSmart (cube : Cube) (entries : List (ℤ × ℕ)) : List Cube :=
  [cube ++ [branchVar cube entries], cube ++ [int32 (-branchVar cube entries)]]

/-- One round of `main`'s loop: every cube is split.  Call number `k + i` of the splitter, on the
`i`-th cube, visits the table in the order `order (k + i)`. -/
def splitRound (order : ℕ → List (ℤ × ℕ)) (k : ℕ) (cubes : List Cube) : List Cube :=
  (cubes.zipIdx k).flatMap fun ci => splitCubeSmart ci.1 (order ci.2)

/-- The cubes after `r` rounds from the empty cube; `2 ^ r - 1` calls went before round `r`. -/
def initialRounds (order : ℕ → List (ℤ × ℕ)) : ℕ → List Cube
  | 0 => [[]]
  | r + 1 => splitRound order (2 ^ r - 1) (initialRounds order r)

/-- The cubes `main` hands to `Solve`. -/
def initialCubes (order : ℕ → List (ℤ × ℕ)) : List Cube := initialRounds order 6

/-! ### Variables of literals -/

theorem varOf_inRange {lit : ℤ} (h : InInt32 lit) : InInt32 (varOf lit) := by
  unfold varOf
  split
  · exact int32_inRange _
  · exact h

/-- A variable is the magnitude of its literal, the least register value apart. -/
theorem varOf_eq_natAbs {lit : ℤ} (h : InInt32 lit) (hmin : lit ≠ -2147483648) :
    varOf lit = lit.natAbs := by
  unfold varOf
  split
  · rw [int32_neg h hmin]
    omega
  · omega

theorem mem_inCube {cube : Cube} {v : ℤ} : inCube cube v = true ↔ ∃ lit ∈ cube, varOf lit = v := by
  simp [inCube]

/-! ### The largest variable of a cube -/

theorem foldl_maxStep_ge (cube : Cube) (m : ℤ) : m ≤ cube.foldl maxStep m := by
  induction cube generalizing m with
  | nil => exact le_refl m
  | cons lit cube ih =>
      have hstep : m ≤ maxStep m lit := by
        unfold maxStep
        split <;> omega
      exact hstep.trans (ih _)

theorem foldl_maxStep_mem (cube : Cube) (m : ℤ) :
    ∀ lit ∈ cube, varOf lit ≤ cube.foldl maxStep m := by
  induction cube generalizing m with
  | nil => intro lit h; simp at h
  | cons x cube ih =>
      intro lit h
      rcases List.mem_cons.mp h with rfl | h
      · have hstep : varOf lit ≤ maxStep m lit := by
          unfold maxStep
          split <;> omega
        exact hstep.trans (foldl_maxStep_ge cube _)
      · exact ih _ lit h

theorem foldl_maxStep_attained (cube : Cube) (m : ℤ) :
    cube.foldl maxStep m = m ∨ ∃ lit ∈ cube, cube.foldl maxStep m = varOf lit := by
  induction cube generalizing m with
  | nil => exact Or.inl rfl
  | cons x cube ih =>
      rw [List.foldl_cons]
      rcases ih (maxStep m x) with h | ⟨lit, hlit, h⟩
      · rw [h]
        unfold maxStep
        split
        · exact Or.inr ⟨x, List.mem_cons_self, rfl⟩
        · exact Or.inl rfl
      · exact Or.inr ⟨lit, List.mem_cons_of_mem x hlit, h⟩

theorem maxVar_nonneg (cube : Cube) : 0 ≤ maxVar cube := foldl_maxStep_ge cube 0

theorem varOf_le_maxVar {cube : Cube} {lit : ℤ} (h : lit ∈ cube) : varOf lit ≤ maxVar cube :=
  foldl_maxStep_mem cube 0 lit h

/-- The largest variable is `0` or the variable of some literal. -/
theorem maxVar_attained (cube : Cube) : maxVar cube = 0 ∨ ∃ lit ∈ cube, maxVar cube = varOf lit :=
  foldl_maxStep_attained cube 0

/-! ### The tally -/

theorem mem_bump {v w : ℤ} {n : ℕ} {freq : List (ℤ × ℕ)} (h : (w, n) ∈ bump v freq) :
    (w = v ∧ 0 < n) ∨ (w, n) ∈ freq := by
  induction freq with
  | nil =>
      simp only [bump, List.mem_singleton, Prod.mk.injEq] at h
      exact Or.inl ⟨h.1, by omega⟩
  | cons e rest ih =>
      simp only [bump] at h
      split at h
      · rename_i hv
        rcases List.mem_cons.mp h with he | hr
        · obtain ⟨rfl, rfl⟩ := Prod.mk.inj he
          exact Or.inl ⟨hv, Nat.succ_pos _⟩
        · exact Or.inr (List.mem_cons_of_mem _ hr)
      · rcases List.mem_cons.mp h with he | hr
        · exact Or.inr (he ▸ List.mem_cons_self)
        · exact (ih hr).imp_right (List.mem_cons_of_mem _)

theorem exists_mem_bump (v : ℤ) (freq : List (ℤ × ℕ)) : ∃ n, 0 < n ∧ (v, n) ∈ bump v freq := by
  induction freq with
  | nil => exact ⟨1, Nat.one_pos, by simp [bump]⟩
  | cons e rest ih =>
      simp only [bump]
      split
      · rename_i hv
        exact ⟨e.2 + 1, Nat.succ_pos _, by simp [hv]⟩
      · obtain ⟨n, hn, hmem⟩ := ih
        exact ⟨n, hn, List.mem_cons_of_mem _ hmem⟩

/-- Counting another occurrence loses no variable. -/
theorem bump_keeps {v w : ℤ} {n : ℕ} {freq : List (ℤ × ℕ)} (hn : 0 < n) (h : (w, n) ∈ freq) :
    ∃ n', 0 < n' ∧ (w, n') ∈ bump v freq := by
  induction freq with
  | nil => simp at h
  | cons e rest ih =>
      simp only [bump]
      rcases List.mem_cons.mp h with rfl | hr
      · split
        · exact ⟨n + 1, Nat.succ_pos _, by simp⟩
        · exact ⟨n, hn, by simp⟩
      · split
        · exact ⟨n, hn, List.mem_cons_of_mem _ hr⟩
        · obtain ⟨n', hn', hmem⟩ := ih hr
          exact ⟨n', hn', List.mem_cons_of_mem _ hmem⟩

theorem freqTable_eq (clauses : List Clause) :
    freqTable clauses = clauses.flatten.foldl tally [] := by
  rw [freqTable, List.foldl_flatten]

theorem mem_foldl_tally {lits : List ℤ} {freq : List (ℤ × ℕ)} {w : ℤ} {n : ℕ}
    (h : (w, n) ∈ lits.foldl tally freq) :
    (0 < n ∧ w ≠ 0 ∧ ∃ lit ∈ lits, varOf lit = w) ∨ (w, n) ∈ freq := by
  induction lits generalizing freq with
  | nil => exact Or.inr h
  | cons x lits ih =>
      rcases ih h with ⟨hn, hw, lit, hlit, hv⟩ | hmem
      · exact Or.inl ⟨hn, hw, lit, List.mem_cons_of_mem x hlit, hv⟩
      · unfold tally at hmem
        split at hmem
        · exact Or.inr hmem
        · rename_i hx
          rcases mem_bump hmem with ⟨rfl, hn⟩ | hmem
          · exact Or.inl ⟨hn, hx, x, List.mem_cons_self, rfl⟩
          · exact Or.inr hmem

theorem foldl_tally_keeps {lits : List ℤ} {freq : List (ℤ × ℕ)} {w : ℤ}
    (h : ∃ n, 0 < n ∧ (w, n) ∈ freq) : ∃ n, 0 < n ∧ (w, n) ∈ lits.foldl tally freq := by
  induction lits generalizing freq with
  | nil => exact h
  | cons x lits ih =>
      apply ih
      unfold tally
      split
      · exact h
      · obtain ⟨n, hn, hmem⟩ := h
        exact bump_keeps hn hmem

theorem foldl_tally_counts {lits : List ℤ} {freq : List (ℤ × ℕ)} {lit : ℤ} (h : lit ∈ lits)
    (hz : varOf lit ≠ 0) : ∃ n, 0 < n ∧ (varOf lit, n) ∈ lits.foldl tally freq := by
  induction lits generalizing freq with
  | nil => simp at h
  | cons x lits ih =>
      rcases List.mem_cons.mp h with rfl | h
      · have hstep : tally freq lit = bump (varOf lit) freq := if_neg hz
        rw [List.foldl_cons, hstep]
        exact foldl_tally_keeps (exists_mem_bump _ _)
      · exact ih h

/-- **The table holds the occurring variables**, each with a positive count, and no others. -/
theorem mem_freqTable {clauses : List Clause} {w : ℤ} {n : ℕ} (h : (w, n) ∈ freqTable clauses) :
    0 < n ∧ w ≠ 0 ∧ ∃ clause ∈ clauses, ∃ lit ∈ clause, varOf lit = w := by
  rw [freqTable_eq] at h
  rcases mem_foldl_tally h with ⟨hn, hw, lit, hlit, hv⟩ | hmem
  · obtain ⟨clause, hclause, hin⟩ := List.mem_flatten.mp hlit
    exact ⟨hn, hw, clause, hclause, lit, hin, hv⟩
  · simp at hmem

theorem freqTable_counts {clauses : List Clause} {clause : Clause} {lit : ℤ}
    (hclause : clause ∈ clauses) (hlit : lit ∈ clause) (hz : varOf lit ≠ 0) :
    ∃ n, 0 < n ∧ (varOf lit, n) ∈ freqTable clauses := by
  rw [freqTable_eq]
  exact foldl_tally_counts (List.mem_flatten.mpr ⟨clause, hclause, hlit⟩) hz

/-! ### The selection loop -/

/-- What the loop compares: the frequency, then the variable. -/
def rank (e : ℤ × ℕ) : ℕ ×ₗ ℤ := toLex (e.2, e.1)

theorem pickBest_eq_select (cube : Cube) (entries : List (ℤ × ℕ)) :
    pickBest cube entries = Selection.select (fun e => inCube cube e.1) rank (0, 0) entries := by
  have hstep : pickStep cube = Selection.consider (fun e => inCube cube e.1) rank := by
    funext best e
    unfold pickStep Selection.consider
    have hlt : rank best < rank e ↔ best.2 < e.2 ∨ (e.2 = best.2 ∧ best.1 < e.1) := by
      rw [rank, rank, Prod.Lex.toLex_lt_toLex, eq_comm]
    simp only [hlt]
  rw [pickBest, hstep]
  rfl

/-- **The loop chooses an entry off the cube, or nothing when there is none.** -/
theorem pickBest_cases (cube : Cube) (entries : List (ℤ × ℕ)) :
    pickBest cube entries = (0, 0) ∨
      pickBest cube entries ∈ entries ∧ inCube cube (pickBest cube entries).1 = false := by
  rw [pickBest_eq_select]
  exact (Selection.select_cases _ rank (0, 0) entries).imp_right fun h => ⟨h.1, h.2.1⟩

/-- No entry off the cube beats the choice, neither by its frequency nor, on a tie, by its variable. -/
theorem rank_le_pickBest {cube : Cube} {entries : List (ℤ × ℕ)} {e : ℤ × ℕ} (h : e ∈ entries)
    (hin : inCube cube e.1 = false) : rank e ≤ rank (pickBest cube entries) := by
  rw [pickBest_eq_select]
  exact Selection.key_le_select h hin

theorem pickBest_max {cube : Cube} {entries : List (ℤ × ℕ)} {e : ℤ × ℕ} (h : e ∈ entries)
    (hin : inCube cube e.1 = false) : e.2 ≤ (pickBest cube entries).2 := by
  rcases Prod.Lex.toLex_le_toLex.mp (rank_le_pickBest h hin) with hlt | ⟨heq, -⟩
  · exact hlt.le
  · exact heq.le

/-! ### The branching variable -/

/-- The variables occurring in the clauses. -/
def Occurs (clauses : List Clause) (v : ℤ) : Prop :=
  v ≠ 0 ∧ ∃ clause ∈ clauses, ∃ lit ∈ clause, varOf lit = v

/-- Clause literals that a register holds and whose negation does not overflow. -/
def SmallLits (clauses : List Clause) : Prop :=
  ∀ clause ∈ clauses, ∀ lit ∈ clause, lit ≠ 0 ∧ -2147483647 ≤ lit ∧ lit ≤ 2147483647

instance (clauses : List Clause) : Decidable (SmallLits clauses) :=
  inferInstanceAs (Decidable (∀ clause ∈ clauses, ∀ lit ∈ clause,
    lit ≠ 0 ∧ -2147483647 ≤ lit ∧ lit ≤ 2147483647))

theorem SmallLits.varOf {clauses : List Clause} (h : SmallLits clauses) {clause : Clause} {lit : ℤ}
    (hclause : clause ∈ clauses) (hlit : lit ∈ clause) :
    Master.varOf lit = lit.natAbs ∧ 0 < Master.varOf lit ∧ Master.varOf lit ≤ 2147483647 := by
  obtain ⟨hz, hlo, hhi⟩ := h clause hclause lit hlit
  have hv := @varOf_eq_natAbs lit ⟨by omega, by omega⟩ (by omega)
  exact ⟨hv, by omega, by omega⟩

theorem SmallLits.occurs {clauses : List Clause} (h : SmallLits clauses) {v : ℤ}
    (hv : Occurs clauses v) : 0 < v ∧ v ≤ 2147483647 := by
  obtain ⟨-, clause, hclause, lit, hlit, rfl⟩ := hv
  exact (h.varOf hclause hlit).2

/-- **The branching variable**: an occurring variable off the cube, or, when every occurring
variable is in the cube, the successor of the largest variable of the cube. -/
theorem branchVar_cases {clauses : List Clause} {entries : List (ℤ × ℕ)}
    (horder : MapOrder clauses entries) (cube : Cube) :
    (Occurs clauses (branchVar cube entries) ∧ inCube cube (branchVar cube entries) = false) ∨
      ((∀ v, Occurs clauses v → inCube cube v = true) ∧
        branchVar cube entries = int32 (maxVar cube + 1)) := by
  by_cases hb : (pickBest cube entries).1 = 0
  · right
    have hbranch : branchVar cube entries = int32 (maxVar cube + 1) := if_pos hb
    refine ⟨?_, hbranch⟩
    rintro v ⟨hz, clause, hclause, lit, hlit, rfl⟩
    by_contra hin
    obtain ⟨n, hn, hmem⟩ := freqTable_counts hclause hlit hz
    have hmax : n ≤ (pickBest cube entries).2 :=
      pickBest_max (horder.mem_iff.mpr hmem) (by simpa using hin)
    rcases pickBest_cases cube entries with h0 | ⟨hpick, -⟩
    · rw [h0] at hmax
      omega
    · exact (mem_freqTable (horder.mem_iff.mp hpick)).2.1 hb
  · left
    have hbranch : branchVar cube entries = (pickBest cube entries).1 := if_neg hb
    rw [hbranch]
    rcases pickBest_cases cube entries with h0 | ⟨hpick, hin⟩
    · exact absurd (by rw [h0]) hb
    · exact ⟨(mem_freqTable (horder.mem_iff.mp hpick)).2, hin⟩

/-- No overflow in a split of `cube`: when every occurring variable is in the cube, its largest
variable has a successor in the register. -/
def SplitFits (clauses : List Clause) (cube : Cube) : Prop :=
  (∀ v, Occurs clauses v → inCube cube v = true) → maxVar cube < 2147483647

theorem branchVar_pos {clauses : List Clause} {entries : List (ℤ × ℕ)} {cube : Cube}
    (hsmall : SmallLits clauses) (horder : MapOrder clauses entries) (hfits : SplitFits clauses cube) :
    0 < branchVar cube entries ∧ branchVar cube entries ≤ 2147483647 := by
  rcases branchVar_cases horder cube with ⟨hocc, -⟩ | ⟨hall, heq⟩
  · exact hsmall.occurs hocc
  · have hlt := hfits hall
    have hge := maxVar_nonneg cube
    rw [heq, int32_of_range ⟨by omega, by omega⟩]
    omega

/-- Without overflow the two children branch on a literal and its negation. -/
theorem splitCubeSmart_eq {clauses : List Clause} {entries : List (ℤ × ℕ)} {cube : Cube}
    (hsmall : SmallLits clauses) (horder : MapOrder clauses entries) (hfits : SplitFits clauses cube) :
    splitCubeSmart cube entries =
      [cube ++ [branchVar cube entries], cube ++ [-branchVar cube entries]] := by
  obtain ⟨hpos, hle⟩ := branchVar_pos hsmall horder hfits
  rw [splitCubeSmart, int32_neg ⟨by omega, by omega⟩ (by omega)]

/-- **A split partitions its cube.** -/
theorem hits_splitCubeSmart {clauses : List Clause} {entries : List (ℤ × ℕ)} {cube : Cube}
    (a : Assignment) (hsmall : SmallLits clauses) (horder : MapOrder clauses entries)
    (hfits : SplitFits clauses cube) : hits a (splitCubeSmart cube entries) = hits a [cube] := by
  rw [splitCubeSmart_eq hsmall horder hfits]
  exact hits_split (by have := branchVar_pos hsmall horder hfits; omega)

/-- **A round partitions what it splits.** -/
theorem hits_splitRound {clauses : List Clause} {order : ℕ → List (ℤ × ℕ)} (a : Assignment)
    (hsmall : SmallLits clauses) (horder : ∀ k, MapOrder clauses (order k)) (k : ℕ)
    (cubes : List Cube) (hfits : ∀ cube ∈ cubes, SplitFits clauses cube) :
    hits a (splitRound order k cubes) = hits a cubes := by
  unfold splitRound
  induction cubes generalizing k with
  | nil => rfl
  | cons cube cubes ih =>
      rw [List.zipIdx_cons, List.flatMap_cons, hits_append,
        ih (k + 1) fun c hc => hfits c (List.mem_cons_of_mem _ hc),
        hits_splitCubeSmart a hsmall (horder k) (hfits cube List.mem_cons_self),
        hits_singleton, hits_cons]

/-- **The initial rounds partition the assignments.** -/
theorem hits_initialRounds {clauses : List Clause} {order : ℕ → List (ℤ × ℕ)} (a : Assignment)
    (hsmall : SmallLits clauses) (horder : ∀ k, MapOrder clauses (order k)) (r : ℕ)
    (hfits : ∀ q < r, ∀ cube ∈ initialRounds order q, SplitFits clauses cube) :
    hits a (initialRounds order r) = 1 := by
  induction r with
  | zero => rfl
  | succ r ih =>
      rw [initialRounds, hits_splitRound a hsmall horder _ _ (hfits r (Nat.lt_succ_self r))]
      exact ih fun q hq => hfits q (hq.trans (Nat.lt_succ_self r))

end HydraSAT.Master
