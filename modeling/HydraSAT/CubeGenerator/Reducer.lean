import Mathlib.Data.List.Nodup
import Mathlib.Logic.Function.Basic
import HydraSAT.Lib.Dimacs

/-!
# The vendored unit propagator

Class `bipe::reducer::Propagator`, which the thread-pool generator expands its cubes with.  A literal is
its DIMACS integer.  Binary clauses are stored as lists of implied literals; of a longer clause the first
two literals are watched, and propagation permutes its literals.

A clause reference is the position of the clause among those of three or more literals, instead of its
offset in `m_data`.  The lists in `m_data` have no bound here.

* `Propagator`, `Propagator.propagate`, `Propagator.new`: the code;
* `Propagator.asserted`: whether the assertions of the class have held so far;
* `Propagator.Inv`: what every operation keeps.
-/

namespace HydraSAT.CubeGenerator.Reducer

open HydraSAT.Lib

/-! ### The code -/

/-- `lbool`. -/
inductive LBool
  | lTrue
  | lFalse
  | lUndef
  deriving DecidableEq

/-- `l_True`, `l_False` and `l_Undef` as numbers. -/
def LBool.code : LBool → ℕ
  | .lTrue => 0
  | .lFalse => 1
  | .lUndef => 2

/-- A clause of three or more literals, `c[0]`, `c[1]` and the others. -/
structure LongClause where
  first : ℤ
  second : ℤ
  others : List ℤ

def LongClause.lits (c : LongClause) : Clause := c.first :: c.second :: c.others

/-- The fields of the class. -/
structure Propagator where
  nbVar : ℕ
  isUnsat : Bool
  /-- `m_notBinClauseRefs`. -/
  clauses : List LongClause
  /-- `m_binListRefs`: the literals that a literal implies. -/
  binary : ℤ → List ℤ
  /-- `m_watchList`. -/
  watches : ℤ → List ℕ
  /-- The first `m_trailSize` entries of `m_trail`. -/
  trail : List ℤ
  trailLimUnit : ℕ
  trailPos : ℕ
  /-- By variable. -/
  assign : ℕ → LBool
  asserted : Bool

/-- What becomes of an entry of a watch list. -/
inductive Visit
  | keep
  | move
  | conflict

namespace Propagator

/-- 0 if the literal is true, 1 if it is false, above 1 if it is unassigned. -/
def value (P : Propagator) (l : ℤ) : ℕ := (if l < 0 then 1 else 0) ^^^ (P.assign l.natAbs).code

def uncheckedEnqueue (P : Propagator) (l : ℤ) : Propagator :=
  { P with
    asserted := P.asserted && decide (P.assign l.natAbs = .lUndef)
    trail := P.trail ++ [l]
    assign := Function.update P.assign l.natAbs (if l < 0 then .lFalse else .lTrue) }

/-- The loop of `propagate` over the literals that a binary clause implies. -/
def propagateBinary : Propagator → List ℤ → Bool × Propagator
  | P, [] => (true, P)
  | P, k :: ks =>
      if 2 ≤ P.value k then propagateBinary (P.uncheckedEnqueue k) ks
      else if P.value k = 1 then (false, P)
      else propagateBinary P ks

/-- The loop over `c[2]`, `c[3]`, …: the first literal that is not false, with those before and behind. -/
def search (P : Propagator) : List ℤ → Option (List ℤ × ℤ × List ℤ)
  | [] => none
  | k :: ks =>
      if P.value k = 1 then (P.search ks).map fun r => (k :: r.1, r.2.1, r.2.2) else some ([], k, ks)

def store (P : Propagator) (cref : ℕ) (c : LongClause) : Propagator :=
  { P with clauses := P.clauses.set cref c }

def push (P : Propagator) (l : ℤ) (cref : ℕ) : Propagator :=
  { P with watches := Function.update P.watches l (P.watches l ++ [cref]) }

/-- The body of the loop over the watches of `~l`. -/
def visit (P : Propagator) (l : ℤ) (cref : ℕ) : Visit × Propagator :=
  match P.clauses[cref]? with
  | none => (.keep, P)
  | some stored =>
      let c : LongClause :=
        if stored.second = -l then ⟨stored.second, stored.first, stored.others⟩ else stored
      let P := { P with
        asserted := P.asserted && decide (stored.first = -l ∨ stored.second = -l) }
      if P.value c.second = 0 then (.keep, P.store cref c)
      else
        match P.search c.others with
        | none =>
            if P.value c.second = 1 then (.conflict, P.store cref c)
            else (.keep, (P.store cref c).uncheckedEnqueue c.second)
        | some (before, w, behind) =>
            if P.value w = 0 then (.keep, P.store cref c)
            else (.move, (P.store cref ⟨w, c.second, before ++ c.first :: behind⟩).push w cref)

/-- The loop over the watches of `~l`.  The list is `kept ++ rest` at the head of an iteration: `j` is
the length of `kept`, and the entries from `j` to `i` are gone. -/
def scanWatches (l : ℤ) : Propagator → List ℕ → List ℕ → Bool × Propagator
  | P, _, [] => (true, P)
  | P, kept, cref :: rest =>
      match P.visit l cref with
      | (.keep, P) => scanWatches l P (kept ++ [cref]) rest
      | (.move, P) =>
          scanWatches l { P with watches := Function.update P.watches (-l) (kept ++ rest) } kept rest
      | (.conflict, P) => (false, P)

/-- One iteration of `propagate`. -/
def propagateLit (P : Propagator) (l : ℤ) : Bool × Propagator :=
  match P.propagateBinary (P.binary l) with
  | (false, P) => (false, P)
  | (true, P) => scanWatches l P [] (P.watches (-l))

/-- The loop of `propagate`; the first argument bounds the number of iterations. -/
def propagateLoop : ℕ → Propagator → Bool × Propagator
  | 0, P => (true, P)
  | fuel + 1, P =>
      match P.trail[P.trailPos]? with
      | none => (true, P)
      | some l =>
          match propagateLit { P with trailPos := P.trailPos + 1 } l with
          | (true, P) => propagateLoop fuel P
          | (false, P) => (false, P)

/-- The trail has every variable at most once, so that as many iterations are enough. -/
def propagate (P : Propagator) : Bool × Propagator := propagateLoop (P.nbVar + 1) P

/-- `m_assign` after the variables of the literals are reset. -/
def unassign (assign : ℕ → LBool) (lits : List ℤ) : ℕ → LBool :=
  lits.foldl (fun assign l => Function.update assign l.natAbs .lUndef) assign

def restart (P : Propagator) : Propagator :=
  { P with
    assign := unassign P.assign (P.trail.drop P.trailLimUnit)
    trail := P.trail.take P.trailLimUnit
    trailPos := P.trailLimUnit }

def cancelUntilPos (P : Propagator) (pos : ℕ) : Propagator :=
  { P with
    assign := unassign P.assign (P.trail.drop pos).reverse
    trail := P.trail.take pos
    trailPos := min P.trailPos (P.trail.take pos).length }

/-- The literals of a clause that are not assigned; `none` if one is true. -/
def reduceClause (P : Propagator) : Clause → Option Clause
  | [] => some []
  | k :: ks =>
      if 2 ≤ P.value k then (P.reduceClause ks).map fun r => k :: r
      else if P.value k = 0 then none
      else P.reduceClause ks

def addBinary (P : Propagator) (a b : ℤ) : Propagator :=
  let binary := Function.update P.binary (-a) (P.binary (-a) ++ [b])
  { P with binary := Function.update binary (-b) (binary (-b) ++ [a]) }

/-- `addClause` of a clause of three or more literals: it is stored and attached. -/
def addLong (P : Propagator) (c : LongClause) : Propagator :=
  (({ P with clauses := P.clauses ++ [c] }).push c.first P.clauses.length).push c.second P.clauses.length

def addClause (P : Propagator) (clause : Clause) : Propagator :=
  if P.isUnsat then P
  else
    match P.reduceClause clause with
    | none => P
    | some [] => { P with isUnsat := true }
    | some [l] =>
        if P.assign l.natAbs = .lUndef then
          let r := (P.uncheckedEnqueue l).propagate
          { r.2 with isUnsat := !r.1 }
        else { P with isUnsat := decide (P.value l = 1) }
    | some [a, b] => P.addBinary a b
    | some (a :: b :: others) => P.addLong ⟨a, b, others⟩

def empty (nbVar : ℕ) : Propagator :=
  { nbVar := nbVar
    isUnsat := false
    clauses := []
    binary := fun _ => []
    watches := fun _ => []
    trail := []
    trailLimUnit := 0
    trailPos := 0
    assign := fun _ => .lUndef
    asserted := true }

/-- The constructor. -/
def new (nbVar : ℕ) (clauses : List Clause) : Propagator :=
  let P := clauses.foldl addClause (empty nbVar)
  if P.isUnsat then P else { P with trailLimUnit := P.trail.length }

end Propagator

/-! ### What every operation keeps -/

/-- The literals `±1` to `±n`. -/
def Valid (n : ℕ) (l : ℤ) : Prop := l ≠ 0 ∧ l.natAbs ≤ n

/-- Every model of the formula satisfies the clause. -/
def Entails (F : List Clause) (c : Clause) : Prop :=
  ∀ a, formulaTrue a F = true → clauseTrue a c = true

namespace Propagator

variable {F : List Clause} {n : ℕ} {P Q : Propagator} {l k : ℤ} {a : Assignment}

/-- How many of the two watches of a clause are on the literal. -/
def watching (P : Propagator) (cref : ℕ) (l : ℤ) : ℕ :=
  match P.clauses[cref]? with
  | none => 0
  | some c => [c.first, c.second].count l

/-- **What every operation keeps.**  The stored clauses follow from the formula and the watch lists hold
what they say, the trail has every variable at most once, and it is what is assigned. -/
structure Inv (F : List Clause) (n : ℕ) (P : Propagator) : Prop where
  nbVar : P.nbVar = n
  binary : ∀ l, ∀ k ∈ P.binary l, Valid n k ∧ Entails F [-l, k]
  clauses : ∀ c ∈ P.clauses, (∀ l ∈ c.lits, Valid n l) ∧ Entails F c.lits
  watched : ∀ l cref, (P.watches l).count cref = P.watching cref l
  valid : ∀ l ∈ P.trail, Valid n l
  nodup : (P.trail.map Int.natAbs).Nodup
  assignTrue : ∀ v, P.assign v = .lTrue ↔ (v : ℤ) ∈ P.trail
  assignFalse : ∀ v, P.assign v = .lFalse ↔ -(v : ℤ) ∈ P.trail
  limit : P.trailLimUnit ≤ P.trail.length
  units : ∀ a, formulaTrue a F = true → cubeTrue a (P.trail.take P.trailLimUnit) = true
  asserted : P.asserted = true

theorem natAbs_of_neg (h : l < 0) : -(l.natAbs : ℤ) = l := by omega

theorem natAbs_of_nonneg (h : ¬l < 0) : (l.natAbs : ℤ) = l := by omega

/-- **The true literals are those of the trail.** -/
theorem Inv.value_eq_zero (h : P.Inv F n) : P.value l = 0 ↔ l ∈ P.trail := by
  unfold value
  by_cases hl : l < 0
  · have hfalse := h.assignFalse l.natAbs
    rw [natAbs_of_neg hl] at hfalse
    rw [if_pos hl, ← hfalse]
    cases P.assign l.natAbs <;> decide
  · have htrue := h.assignTrue l.natAbs
    rw [natAbs_of_nonneg hl] at htrue
    rw [if_neg hl, ← htrue]
    cases P.assign l.natAbs <;> decide

theorem Inv.value_eq_one (h : P.Inv F n) : P.value l = 1 ↔ -l ∈ P.trail := by
  unfold value
  by_cases hl : l < 0
  · have htrue := h.assignTrue l.natAbs
    have habs := natAbs_of_neg hl
    rw [show (l.natAbs : ℤ) = -l by omega] at htrue
    rw [if_pos hl, ← htrue]
    cases P.assign l.natAbs <;> decide
  · have hfalse := h.assignFalse l.natAbs
    rw [natAbs_of_nonneg hl] at hfalse
    rw [if_neg hl, ← hfalse]
    cases P.assign l.natAbs <;> decide

theorem Inv.two_le_value (h : P.Inv F n) : 2 ≤ P.value l ↔ l ∉ P.trail ∧ -l ∉ P.trail := by
  rw [← h.value_eq_zero, ← h.value_eq_one]
  omega

theorem two_le_value_iff : 2 ≤ P.value l ↔ P.assign l.natAbs = .lUndef := by
  unfold value
  by_cases hl : l < 0
  · rw [if_pos hl]
    cases P.assign l.natAbs <;> decide
  · rw [if_neg hl]
    cases P.assign l.natAbs <;> decide

/-- The trail contradicts itself nowhere. -/
theorem Inv.neg_not_mem (h : P.Inv F n) (hl : l ∈ P.trail) : -l ∉ P.trail := by
  intro hneg
  have hzero := (h.value_eq_zero (l := l)).mpr hl
  have hone := (h.value_eq_one (l := l)).mpr hneg
  omega

theorem Inv.length_le (h : P.Inv F n) : P.trail.length ≤ n := by
  have hsub : ∀ v ∈ P.trail.map Int.natAbs, v ∈ List.range' 1 n := by
    intro v hv
    obtain ⟨l, hl, rfl⟩ := List.mem_map.mp hv
    obtain ⟨hz, hle⟩ := h.valid l hl
    exact List.mem_range'_1.mpr ⟨Int.natAbs_pos.mpr hz, by omega⟩
  have hle := (List.subperm_of_subset h.nodup hsub).length_le
  rwa [List.length_map, List.length_range'] at hle

/-- What the invariant says about clauses and watches only. -/
theorem Inv.of_eq (h : P.Inv F n) (hnb : Q.nbVar = P.nbVar) (hbinary : Q.binary = P.binary)
    (hclauses : Q.clauses = P.clauses) (hwatches : Q.watches = P.watches) (htrail : Q.trail = P.trail)
    (hlim : Q.trailLimUnit = P.trailLimUnit) (hassign : Q.assign = P.assign)
    (hasserted : Q.asserted = P.asserted) : Q.Inv F n where
  nbVar := hnb.trans h.nbVar
  binary := hbinary ▸ h.binary
  clauses := hclauses ▸ h.clauses
  watched l cref := by
    rw [hwatches, watching, hclauses]
    exact h.watched l cref
  valid := htrail ▸ h.valid
  nodup := htrail ▸ h.nodup
  assignTrue v := by
    rw [hassign, htrail]
    exact h.assignTrue v
  assignFalse v := by
    rw [hassign, htrail]
    exact h.assignFalse v
  limit := by
    rw [hlim, htrail]
    exact h.limit
  units := by
    rw [hlim, htrail]
    exact h.units
  asserted := hasserted.trans h.asserted

/-- **Enqueuing** an unassigned literal. -/
theorem Inv.enqueue (h : P.Inv F n) (hl : Valid n l) (hopen : 2 ≤ P.value l) :
    (P.uncheckedEnqueue l).Inv F n := by
  obtain ⟨hnot, hneg⟩ := h.two_le_value.mp hopen
  have hassign : ∀ v, (P.uncheckedEnqueue l).assign v =
      if v = l.natAbs then (if l < 0 then .lFalse else .lTrue) else P.assign v := fun v =>
    Function.update_apply P.assign l.natAbs _ v
  have hmem : ∀ k : ℤ, k ∈ (P.uncheckedEnqueue l).trail ↔ k ∈ P.trail ∨ k = l := fun k => by
    rw [uncheckedEnqueue, List.mem_append, List.mem_singleton]
  have hz := hl.1
  refine ⟨h.nbVar, h.binary, h.clauses, h.watched, ?_, ?_, fun v => ?_, fun v => ?_, ?_, ?_, ?_⟩
  · intro k hk
    exact ((hmem k).mp hk).elim (h.valid k) fun heq => heq ▸ hl
  · show ((P.trail ++ [l]).map Int.natAbs).Nodup
    rw [List.map_append]
    refine h.nodup.append (List.nodup_singleton _) ?_
    intro v hv hvl
    obtain ⟨k, hk, rfl⟩ := List.mem_map.mp hv
    rcases Int.natAbs_eq_natAbs_iff.mp (List.mem_singleton.mp hvl) with rfl | rfl
    · exact hnot hk
    · exact hneg hk
  · rw [hassign, hmem]
    by_cases hv : v = l.natAbs
    · rw [if_pos hv]
      by_cases hsign : l < 0
      · rw [if_pos hsign]
        refine iff_of_false (by decide) ?_
        rintro (hmem | heq)
        · exact hneg (by rwa [show -l = (v : ℤ) by omega])
        · omega
      · rw [if_neg hsign]
        exact iff_of_true rfl (.inr (by omega))
    · rw [if_neg hv, h.assignTrue]
      exact (or_iff_left (by omega)).symm
  · rw [hassign, hmem]
    by_cases hv : v = l.natAbs
    · rw [if_pos hv]
      by_cases hsign : l < 0
      · rw [if_pos hsign]
        exact iff_of_true rfl (.inr (by omega))
      · rw [if_neg hsign]
        refine iff_of_false (by decide) ?_
        rintro (hmem | heq)
        · exact hneg (by rwa [show -l = -(v : ℤ) by omega])
        · omega
    · rw [if_neg hv, h.assignFalse]
      exact (or_iff_left (by omega)).symm
  · have hlen := h.limit
    show P.trailLimUnit ≤ (P.trail ++ [l]).length
    rw [List.length_append]
    omega
  · show ∀ a, _ → cubeTrue a ((P.trail ++ [l]).take P.trailLimUnit) = true
    rw [List.take_append_of_le_length h.limit]
    exact h.units
  · show (P.asserted && _) = true
    rw [h.asserted, two_le_value_iff.mp hopen]
    rfl

/-! ### Going back -/

theorem unassign_apply (assign : ℕ → LBool) (lits : List ℤ) (v : ℕ) :
    unassign assign lits v = if v ∈ lits.map Int.natAbs then .lUndef else assign v := by
  unfold unassign
  induction lits generalizing assign with
  | nil => rfl
  | cons l lits ih =>
      rw [List.foldl_cons, ih, List.map_cons]
      by_cases hv : v ∈ lits.map Int.natAbs
      · rw [if_pos hv, if_pos (List.mem_cons_of_mem _ hv)]
      · rw [if_neg hv, Function.update_apply]
        by_cases hvl : v = l.natAbs
        · rw [if_pos hvl, if_pos (hvl ▸ List.mem_cons_self)]
        · rw [if_neg hvl, if_neg (List.not_mem_cons_of_ne_of_not_mem hvl hv)]

/-- **Going back** to a part of the trail that has the units. -/
theorem Inv.truncate (h : P.Inv F n) {pre post lits : List ℤ} (htrail : P.trail = pre ++ post)
    (hlits : ∀ l, l ∈ lits ↔ l ∈ post) (hlim : P.trailLimUnit ≤ pre.length) (pos : ℕ) :
    Propagator.Inv F n
      { P with assign := unassign P.assign lits, trail := pre, trailPos := pos } := by
  have hsub : ∀ l ∈ pre, l ∈ P.trail := fun l hl => htrail ▸ List.mem_append_left post hl
  have hdisj : ∀ l ∈ pre, l.natAbs ∉ lits.map Int.natAbs := by
    intro l hl hmem
    obtain ⟨k, hk, heq⟩ := List.mem_map.mp hmem
    have hnodup := h.nodup
    rw [htrail, List.map_append] at hnodup
    exact (List.disjoint_of_nodup_append hnodup) (List.mem_map_of_mem hl)
      (heq ▸ List.mem_map_of_mem ((hlits k).mp hk))
  have hback : ∀ (l : ℤ) (v : ℕ), l.natAbs = v → v ∉ lits.map Int.natAbs → l ∈ P.trail → l ∈ pre := by
    intro l v hlv hv hl
    rw [htrail] at hl
    refine (List.mem_append.mp hl).resolve_right fun hpost => hv ?_
    rw [← hlv]
    exact List.mem_map_of_mem ((hlits l).mpr hpost)
  have hiff : ∀ (l : ℤ) (v : ℕ) (x : LBool), l.natAbs = v → x ≠ .lUndef →
      (P.assign v = x ↔ l ∈ P.trail) → (unassign P.assign lits v = x ↔ l ∈ pre) := by
    intro l v x hlv hx hold
    rw [unassign_apply]
    by_cases hv : v ∈ lits.map Int.natAbs
    · rw [if_pos hv]
      exact iff_of_false hx.symm fun hl => hdisj l hl (hlv ▸ hv)
    · rw [if_neg hv, hold]
      exact ⟨hback l v hlv hv, hsub l⟩
  refine ⟨h.nbVar, h.binary, h.clauses, h.watched, fun l hl => h.valid l (hsub l hl), ?_,
    fun v => ?_, fun v => ?_, hlim, ?_, h.asserted⟩
  · have hnodup := h.nodup
    rw [htrail, List.map_append] at hnodup
    exact hnodup.of_append_left
  · exact hiff v v .lTrue (Int.natAbs_natCast v) (by decide) (h.assignTrue v)
  · exact hiff (-v) v .lFalse (by rw [Int.natAbs_neg, Int.natAbs_natCast]) (by decide) (h.assignFalse v)
  · have hunits := h.units
    rwa [htrail, List.take_append_of_le_length hlim] at hunits

theorem Inv.restart (h : P.Inv F n) : P.restart.Inv F n := by
  refine h.truncate (List.take_append_drop P.trailLimUnit P.trail).symm (fun _ => Iff.rfl) ?_ _
  rw [List.length_take]
  exact le_min (le_refl _) h.limit

theorem Inv.cancel (h : P.Inv F n) {pos : ℕ} (hpos : P.trailLimUnit ≤ pos) :
    (P.cancelUntilPos pos).Inv F n := by
  refine h.truncate (List.take_append_drop pos P.trail).symm (fun _ => List.mem_reverse) ?_ _
  rw [List.length_take]
  exact le_min hpos h.limit

end Propagator

end HydraSAT.CubeGenerator.Reducer
