import Mathlib.Data.List.Induction
import Mathlib.Data.List.Nodup
import HydraSAT.Master.Splitting

/-!
# The branching variable does not depend on the map order

The frequency table is a Go map and `range` visits it in any order.  Its entries are the occurring
variables with their exact counts, and the selection loop compares both, so that the choice is a
function of the formula and of the set of variables in the cube.

* `freqTable_count`: the tally is exact;
* `branchVar_congr`: the choice depends on the variables of the cube only;
* `branches_on_most_frequent`: it is the most frequent variable outside the cube, the largest on a
  tie.
-/

namespace HydraSAT.Master

open HydraSAT.Lib

variable {clauses : List Clause} {entries entries' : List (ℤ × ℕ)} {cube cube' : Cube}

/-! ### The tally is exact -/

/-- How many literals have the variable `v`. -/
def countOf (lits : List ℤ) (v : ℤ) : ℕ := lits.countP fun lit => varOf lit = v

/-- Every variable has at most one entry, with its count. -/
def Tallied (lits : List ℤ) (freq : List (ℤ × ℕ)) : Prop :=
  (freq.map Prod.fst).Nodup ∧ ∀ e ∈ freq, e.2 = countOf lits e.1

theorem map_fst_bump (v : ℤ) (freq : List (ℤ × ℕ)) :
    (bump v freq).map Prod.fst =
      if v ∈ freq.map Prod.fst then freq.map Prod.fst else freq.map Prod.fst ++ [v] := by
  induction freq with
  | nil => rfl
  | cons e freq ih =>
      obtain ⟨w, n⟩ := e
      rw [bump]
      by_cases hwv : w = v
      · subst hwv
        rw [if_pos rfl, if_pos (by simp)]
        rfl
      · have hvw : v ≠ w := Ne.symm hwv
        rw [if_neg hwv, List.map_cons, ih]
        simp only [List.map_cons, List.mem_cons, hvw, false_or]
        split <;> rfl

/-- The entries after another occurrence of `v`. -/
theorem bump_spec {v : ℤ} {freq : List (ℤ × ℕ)} (hnodup : (freq.map Prod.fst).Nodup) :
    ∀ e ∈ bump v freq, (e.1 ≠ v ∧ e ∈ freq) ∨
      (e.1 = v ∧ ((v ∉ freq.map Prod.fst ∧ e.2 = 1) ∨ ∃ n, (v, n) ∈ freq ∧ e.2 = n + 1)) := by
  induction freq with
  | nil =>
      intro e he
      rw [List.mem_singleton.mp he]
      exact .inr ⟨rfl, .inl ⟨List.not_mem_nil, rfl⟩⟩
  | cons x freq ih =>
      obtain ⟨w, n⟩ := x
      obtain ⟨hw, hnodup⟩ := List.nodup_cons.mp hnodup
      intro e he
      rw [bump] at he
      by_cases hwv : w = v
      · subst hwv
        rw [if_pos rfl] at he
        rcases List.mem_cons.mp he with rfl | he
        · exact .inr ⟨rfl, .inr ⟨n, List.mem_cons_self, rfl⟩⟩
        · exact .inl ⟨fun heq => hw (List.mem_map.mpr ⟨e, he, heq⟩), List.mem_cons_of_mem _ he⟩
      · rw [if_neg hwv] at he
        rcases List.mem_cons.mp he with rfl | he
        · exact .inl ⟨hwv, List.mem_cons_self⟩
        · rcases ih hnodup e he with ⟨hne, hmem⟩ | ⟨heq, ⟨hnew, hone⟩ | ⟨m, hm, hsucc⟩⟩
          · exact .inl ⟨hne, List.mem_cons_of_mem _ hmem⟩
          · refine .inr ⟨heq, .inl ⟨fun hmem => ?_, hone⟩⟩
            exact (List.mem_cons.mp hmem).elim (fun h => hwv h.symm) hnew
          · exact .inr ⟨heq, .inr ⟨m, List.mem_cons_of_mem _ hm, hsucc⟩⟩

/-- **One turn of the tally loop** keeps the tally exact; what has no entry has not occurred. -/
theorem Tallied.tally {lits : List ℤ} {freq : List (ℤ × ℕ)} (h : Tallied lits freq)
    (hall : ∀ v, v ≠ 0 → v ∉ freq.map Prod.fst → countOf lits v = 0) (hzero : ∀ e ∈ freq, e.1 ≠ 0)
    (lit : ℤ) : Tallied (lits ++ [lit]) (Master.tally freq lit) := by
  obtain ⟨hnodup, hcount⟩ := h
  have hsnoc : ∀ v, countOf (lits ++ [lit]) v = countOf lits v + if varOf lit = v then 1 else 0 := by
    intro v
    rw [countOf, List.countP_append, List.countP_singleton]
    simp [countOf]
  unfold Master.tally
  split
  · rename_i hlit
    refine ⟨hnodup, fun e he => ?_⟩
    rw [hsnoc, if_neg fun heq => hzero e he (heq.symm.trans hlit)]
    exact hcount e he
  · rename_i hlit
    refine ⟨?_, fun e he => ?_⟩
    · rw [map_fst_bump]
      split
      · exact hnodup
      · rename_i hnew
        exact List.Nodup.append hnodup (List.nodup_singleton _) (by simpa using hnew)
    · rw [hsnoc]
      rcases bump_spec hnodup e he with ⟨hne, hmem⟩ | ⟨heq, ⟨hnew, hone⟩ | ⟨n, hn, hsucc⟩⟩
      · rw [if_neg (Ne.symm hne)]
        exact hcount e hmem
      · rw [heq, if_pos rfl, hone, hall _ hlit hnew]
      · rw [heq, if_pos rfl, hsucc, ← hcount _ hn]

theorem tallied_foldl (lits : List ℤ) : Tallied lits (lits.foldl tally []) := by
  induction lits using List.reverseRecOn with
  | nil => exact ⟨List.nodup_nil, fun e he => absurd he List.not_mem_nil⟩
  | append_singleton lits lit ih =>
      rw [List.foldl_append]
      refine ih.tally (fun v hv hnew => ?_) (fun e he => ?_) lit
      · rw [countOf, List.countP_eq_zero]
        intro x hx hxv
        obtain rfl : varOf x = v := of_decide_eq_true hxv
        obtain ⟨n, -, hn⟩ : ∃ n, 0 < n ∧ (varOf x, n) ∈ lits.foldl tally [] :=
          foldl_tally_counts hx hv
        exact hnew (List.mem_map_of_mem hn)
      · rcases mem_foldl_tally (w := e.1) he with ⟨-, hne, -⟩ | hnil
        · exact hne
        · exact absurd hnil List.not_mem_nil

/-- **The table holds the exact counts.** -/
theorem freqTable_count {e : ℤ × ℕ} (he : e ∈ freqTable clauses) :
    e.2 = countOf clauses.flatten e.1 := by
  rw [freqTable_eq] at he
  exact (tallied_foldl _).2 e he

/-! ### Variables of a cube -/

/-- A register value and its variable. -/
theorem varOf_eq_int32 {lit : ℤ} (h : InInt32 lit) : varOf lit = int32 lit.natAbs := by
  unfold varOf
  split
  · congr 1
    omega
  · have hnat : (lit.natAbs : ℤ) = lit := by omega
    rw [hnat, int32_of_range h]

/-- Cubes over the same variables look the same to the selection loop. -/
theorem inCube_congr (hcube : ∀ lit ∈ cube, InInt32 lit) (hcube' : ∀ lit ∈ cube', InInt32 lit)
    (hvars : ∀ v, v ∈ cube'.map Int.natAbs ↔ v ∈ cube.map Int.natAbs) (v : ℤ) :
    inCube cube' v = inCube cube v := by
  have hsub : ∀ c d : Cube, (∀ lit ∈ c, InInt32 lit) → (∀ lit ∈ d, InInt32 lit) →
      (∀ v, v ∈ c.map Int.natAbs → v ∈ d.map Int.natAbs) → inCube c v = true → inCube d v = true := by
    intro c d hc hd hcd hin
    obtain ⟨lit, hlit, rfl⟩ := mem_inCube.mp hin
    obtain ⟨k, hk, hkl⟩ := List.mem_map.mp (hcd _ (List.mem_map_of_mem hlit))
    refine mem_inCube.mpr ⟨k, hk, ?_⟩
    rw [varOf_eq_int32 (hd k hk), varOf_eq_int32 (hc lit hlit), hkl]
  rw [Bool.eq_iff_iff]
  exact ⟨hsub cube' cube hcube' hcube fun v => (hvars v).mp,
    hsub cube cube' hcube hcube' fun v => (hvars v).mpr⟩

theorem maxVar_congr (h : ∀ v, inCube cube' v = inCube cube v) : maxVar cube' = maxVar cube := by
  have hle : ∀ c d : Cube, (∀ v, inCube c v = inCube d v) → maxVar c ≤ maxVar d := by
    intro c d hcd
    rcases maxVar_attained c with hzero | ⟨lit, hlit, heq⟩
    · rw [hzero]
      exact maxVar_nonneg d
    · have hin : inCube d (varOf lit) = true := by
        rw [← hcd]
        exact mem_inCube.mpr ⟨lit, hlit, rfl⟩
      obtain ⟨k, hk, hkl⟩ := mem_inCube.mp hin
      rw [heq, ← hkl]
      exact varOf_le_maxVar hk
  exact le_antisymm (hle cube' cube h) (hle cube cube' fun v => (h v).symm)

theorem rank_injective : Function.Injective rank := by
  intro e e' h
  obtain ⟨hfreq, hvar⟩ := Prod.mk.inj (toLex_inj.mp h)
  exact Prod.ext hvar hfreq

/-- **The choice depends on the variables of the cube only.** -/
theorem branchVar_congr (horder : MapOrder clauses entries) (horder' : MapOrder clauses entries')
    (hin : ∀ v, inCube cube' v = inCube cube v) :
    branchVar cube' entries' = branchVar cube entries := by
  have hskip : (fun e : ℤ × ℕ => inCube cube' e.1) = fun e => inCube cube e.1 :=
    funext fun e => hin e.1
  have hpick : pickBest cube' entries' = pickBest cube entries := by
    rw [pickBest_eq_select, pickBest_eq_select, hskip]
    exact Selection.select_congr (fun e _ => (horder'.trans horder.symm).mem_iff)
      fun x _ y _ hxy => rank_injective hxy
  rw [branchVar, branchVar, hpick, maxVar_congr hin]

/-! ### The most frequent variable -/

/-- How often a variable occurs in the clauses. -/
def occurrences (clauses : List Clause) (v : ℕ) : ℕ :=
  clauses.flatten.countP fun lit => lit.natAbs = v

/-- A variable that occurs in the clauses and is not in the cube. -/
def Candidate (clauses : List Clause) (cube : Cube) (v : ℕ) : Prop :=
  v ∈ clauses.flatten.map Int.natAbs ∧ v ∉ cube.map Int.natAbs

theorem SmallLits.flatten (h : SmallLits clauses) {lit : ℤ} (hlit : lit ∈ clauses.flatten) :
    Master.varOf lit = lit.natAbs ∧ 0 < Master.varOf lit ∧ Master.varOf lit ≤ 2147483647 := by
  obtain ⟨clause, hclause, hmem⟩ := List.mem_flatten.mp hlit
  exact h.varOf hclause hmem

theorem countOf_eq_occurrences (h : SmallLits clauses) (v : ℕ) :
    countOf clauses.flatten v = occurrences clauses v := by
  refine List.countP_congr fun lit hlit => ?_
  rw [(h.flatten hlit).1, decide_eq_true_iff, decide_eq_true_iff, Int.ofNat_inj]

/-- The candidates are the occurring variables that the selection loop does not skip. -/
theorem candidate_iff (h : SmallLits clauses) (hcube : ∀ lit ∈ cube, InInt32 lit) (v : ℕ) :
    Candidate clauses cube v ↔ Occurs clauses v ∧ inCube cube v = false := by
  have hocc : v ∈ clauses.flatten.map Int.natAbs ↔ Occurs clauses v := by
    constructor
    · intro hv
      obtain ⟨lit, hlit, rfl⟩ := List.mem_map.mp hv
      obtain ⟨hvar, hpos, -⟩ := h.flatten hlit
      obtain ⟨clause, hclause, hmem⟩ := List.mem_flatten.mp hlit
      exact ⟨by omega, clause, hclause, lit, hmem, hvar⟩
    · rintro ⟨-, clause, hclause, lit, hmem, hvar⟩
      have hlit := List.mem_flatten.mpr ⟨clause, hclause, hmem⟩
      rw [(h.flatten hlit).1] at hvar
      exact List.mem_map.mpr ⟨lit, hlit, Int.ofNat_inj.mp hvar⟩
  have hin : Occurs clauses v → (v ∈ cube.map Int.natAbs ↔ inCube cube v = true) := by
    intro hv
    obtain ⟨-, hle⟩ := h.occurs hv
    rw [List.mem_map, mem_inCube]
    refine exists_congr fun lit => and_congr_right fun hlit => ?_
    obtain ⟨hlo, hhi⟩ := hcube lit hlit
    by_cases hmin : lit = -2147483648
    · subst hmin
      refine iff_of_false (fun heq => ?_) (fun heq => ?_)
      · rw [← heq] at hle
        exact absurd hle (by decide)
      · have hneg : varOf (-2147483648) = -2147483648 := by decide
        omega
    · rw [varOf_eq_natAbs ⟨hlo, hhi⟩ hmin]
      exact Int.ofNat_inj.symm
  unfold Candidate
  rw [hocc]
  refine and_congr_right fun hv => ?_
  rw [hin hv, Bool.not_eq_true]

theorem mem_entries_iff (horder : MapOrder clauses entries) (e : ℤ × ℕ) :
    e ∈ entries ↔ Occurs clauses e.1 ∧ e.2 = countOf clauses.flatten e.1 := by
  rw [horder.mem_iff]
  constructor
  · intro he
    obtain ⟨-, hne, hocc⟩ := mem_freqTable he
    exact ⟨⟨hne, hocc⟩, freqTable_count he⟩
  · rintro ⟨⟨hne, clause, hclause, lit, hlit, hvar⟩, hcount⟩
    obtain ⟨n, -, hmem⟩ := freqTable_counts hclause hlit (by rwa [hvar])
    rw [hvar] at hmem
    have heq : e = (e.1, n) := Prod.ext rfl (hcount.trans (freqTable_count hmem).symm)
    rwa [heq]

/-- The loop ends on a candidate that beats all others, unless there is none. -/
theorem pickBest_spec (hsmall : SmallLits clauses) (hcube : ∀ lit ∈ cube, InInt32 lit)
    (horder : MapOrder clauses entries) :
    ((pickBest cube entries).1 = 0 ∧ ∀ v, ¬Candidate clauses cube v) ∨
      ∃ w : ℕ, (pickBest cube entries).1 = w ∧ w ≠ 0 ∧ Candidate clauses cube w ∧
        ∀ v, Candidate clauses cube v → occurrences clauses v < occurrences clauses w ∨
          (occurrences clauses v = occurrences clauses w ∧ v ≤ w) := by
  have hentry : ∀ v, Candidate clauses cube v → rank ((v : ℤ), occurrences clauses v) ≤
      rank (pickBest cube entries) := by
    intro v hv
    obtain ⟨hocc, hout⟩ := (candidate_iff hsmall hcube v).mp hv
    exact rank_le_pickBest
      ((mem_entries_iff horder _).mpr ⟨hocc, (countOf_eq_occurrences hsmall v).symm⟩) hout
  rcases pickBest_cases cube entries with hnone | ⟨hmem, hout⟩
  · refine .inl ⟨by rw [hnone], fun v hv => ?_⟩
    have hpos : 0 < occurrences clauses v := by
      obtain ⟨lit, hlit, hvar⟩ := List.mem_map.mp hv.1
      exact List.countP_pos_iff.mpr ⟨lit, hlit, decide_eq_true hvar⟩
    have hle := hentry v hv
    rw [hnone] at hle
    rcases Prod.Lex.toLex_le_toLex.mp hle with hlt | ⟨heq, -⟩
    · exact absurd hlt (Nat.not_lt_zero _)
    · exact hpos.ne' heq
  · obtain ⟨hocc, hcount⟩ := (mem_entries_iff horder _).mp hmem
    obtain ⟨w, hw⟩ := Int.eq_ofNat_of_zero_le (hsmall.occurs hocc).1.le
    rw [hw] at hocc hout hcount
    rw [countOf_eq_occurrences hsmall] at hcount
    refine .inr ⟨w, hw, fun hzero => hocc.1 (by rw [hzero]; rfl), ?_, fun v hv => ?_⟩
    · exact (candidate_iff hsmall hcube w).mpr ⟨hocc, hout⟩
    · refine (Prod.Lex.toLex_le_toLex.mp (hentry v hv)).imp (fun hlt => ?_) fun ⟨heq, hle⟩ => ?_
      · exact hcount ▸ hlt
      · exact ⟨heq.trans hcount, by rw [hw] at hle; exact Int.ofNat_le.mp hle⟩

/-- **The branching variable** is the most frequent variable outside the cube, the largest one on a
tie, whatever the map order; if all occurring variables are in the cube, and only then, the fallback is
taken, which branches on the successor of the largest variable of the cube; and cubes over the same
variables are split on the same variable. -/
theorem branches_on_most_frequent (hsmall : SmallLits clauses) (hcube : ∀ lit ∈ cube, InInt32 lit)
    (horder : MapOrder clauses entries) :
    ∃ b : ℤ, splitCubeSmart cube entries = [cube ++ [b], cube ++ [int32 (-b)]] ∧
      (∀ v, Candidate clauses cube v → ∃ w : ℕ, b = w ∧ Candidate clauses cube w ∧
        (occurrences clauses v < occurrences clauses w ∨
          (occurrences clauses v = occurrences clauses w ∧ v ≤ w))) ∧
      ((pickBest cube entries).1 = 0 ↔ ∀ v, ¬Candidate clauses cube v) ∧
      ((∀ v, ¬Candidate clauses cube v) → b = int32 (maxVar cube + 1)) ∧
      ∀ cube' entries', (∀ lit ∈ cube', InInt32 lit) → MapOrder clauses entries' →
        (∀ v, v ∈ cube'.map Int.natAbs ↔ v ∈ cube.map Int.natAbs) →
        splitCubeSmart cube' entries' = [cube' ++ [b], cube' ++ [int32 (-b)]] := by
  refine ⟨branchVar cube entries, rfl, fun v hv => ?_, ?_, fun hnone => ?_,
    fun cube' entries' hcube' horder' hvars => ?_⟩
  · rcases pickBest_spec hsmall hcube horder with ⟨-, hnone⟩ | ⟨w, hw, hne, hcand, hmax⟩
    · exact absurd hv (hnone v)
    · refine ⟨w, ?_, hcand, hmax v hv⟩
      rw [branchVar, hw, if_neg (Int.natCast_ne_zero.mpr hne)]
  · rcases pickBest_spec hsmall hcube horder with ⟨hzero, hnone⟩ | ⟨w, hw, hne, hcand, -⟩
    · exact iff_of_true hzero hnone
    · rw [hw]
      exact iff_of_false (Int.natCast_ne_zero.mpr hne) fun hnone => hnone w hcand
  · rcases pickBest_spec hsmall hcube horder with ⟨hzero, -⟩ | ⟨w, -, -, hcand, -⟩
    · rw [branchVar, if_pos hzero]
    · exact absurd hcand (hnone w)
  · rw [splitCubeSmart, branchVar_congr horder horder' (inCube_congr hcube hcube' hvars)]

/-- Variables 2 and 3 occur most often; with 3 in the cube, 2 is chosen in both orders of the
table.  With all three in the cube, the fallback branches on 4. -/
theorem branches_on_most_frequent_threeClauses :
    splitCubeSmart [-3] [(1, 1), (2, 2), (3, 2)] = [[-3, 2], [-3, -2]] ∧
      splitCubeSmart [3] [(3, 2), (2, 2), (1, 1)] = [[3, 2], [3, -2]] ∧
      splitCubeSmart [1, 2, 3] [(1, 1), (2, 2), (3, 2)] = [[1, 2, 3, 4], [1, 2, 3, -4]] := by
  have hsmall : SmallLits [[1, -2], [2, 3], [-3]] := by decide
  have hcube : ∀ lit ∈ [(-3 : ℤ)], InInt32 lit := by decide
  have horder : MapOrder [[1, -2], [2, 3], [-3]] [(1, 1), (2, 2), (3, 2)] := by decide
  have hvalue : splitCubeSmart [-3] [(1, 1), (2, 2), (3, 2)] = [[-3, 2], [-3, -2]] := by decide
  have hfull : ∀ lit ∈ [(1 : ℤ), 2, 3], InInt32 lit := by decide
  obtain ⟨b, hsplit, -, -, -, hsame⟩ := branches_on_most_frequent hsmall hcube horder
  obtain ⟨c, hfallback, -, -, hlast, -⟩ := branches_on_most_frequent hsmall hfull horder
  obtain ⟨rfl, -⟩ : 2 = b ∧ -2 = int32 (-b) := by simpa using hvalue.symm.trans hsplit
  obtain rfl : c = 4 := hlast fun v hv => hv.2 <| by
    have hocc := hv.1
    simp at hocc ⊢
    omega
  exact ⟨hsplit, hsame [3] [(3, 2), (2, 2), (1, 1)] (by decide) (by decide) fun v => Iff.rfl, hfallback⟩

end HydraSAT.Master
