import Mathlib.Data.List.Perm.Subperm
import HydraSAT.CubeGenCli.Generator

/-!
# The cubes of cube_gen

A cube is the trail of its branch.  Unit propagation with these watch lists is not complete, so the
refilled propagator may imply a literal that the cube does not have; if the heuristic then branches
on that variable, the cube of one branch contains it with both signs.  Such a cube has no model, but
the refill skips the second of the two literals, and the expansion brings back models that other
cubes already have.

* `firstLits`: what the refill keeps of a cube;
* `createCubes_hits`: an expansion adds the models of `firstLits` that the cube does not have, and
  loses none;
* `generate_hits`: how often a model is covered by the returned cubes;
* `generate_partition_iff`: the returned cubes partition the models of the formula if and only if no
  expansion brings back a model.
-/

namespace HydraSAT.CubeGenCli

open HydraSAT.Lib

variable {F : List Clause} {n : ℕ} {a : Assignment}

/-! ### What the refill keeps -/

/-- The literals whose variables are not among `seen` and not among those of earlier literals. -/
def keep : List ℕ → Cube → Cube
  | _, [] => []
  | seen, l :: lits =>
      if l.natAbs ∈ seen then keep seen lits else l :: keep (seen ++ [l.natAbs]) lits

/-- The first literal of every variable of a cube. -/
def firstLits (lits : Cube) : Cube := keep [] lits

theorem keep_subset (seen : List ℕ) (lits : Cube) : ∀ l ∈ keep seen lits, l ∈ lits := by
  induction lits generalizing seen with
  | nil => exact fun l hl => hl
  | cons k lits ih =>
      intro l hl
      rw [keep] at hl
      split at hl
      · exact List.mem_cons_of_mem k (ih seen l hl)
      · exact List.mem_cons.mpr ((List.mem_cons.mp hl).imp_right (ih _ l))

/-- Every variable of the cube is kept or was seen. -/
theorem keep_covers (seen : List ℕ) (lits : Cube) : ∀ l ∈ lits,
    l.natAbs ∈ seen ∨ l.natAbs ∈ (keep seen lits).map Int.natAbs := by
  induction lits generalizing seen with
  | nil => exact fun l hl => absurd hl List.not_mem_nil
  | cons k lits ih =>
      intro l hl
      rw [keep]
      split
      · rename_i hk
        rcases List.mem_cons.mp hl with rfl | hl
        · exact .inl hk
        · exact ih seen l hl
      · rcases List.mem_cons.mp hl with rfl | hl
        · exact .inr List.mem_cons_self
        · rcases ih (seen ++ [k.natAbs]) l hl with hseen | hkept
          · rcases List.mem_append.mp hseen with hseen | hself
            · exact .inl hseen
            · rw [List.mem_singleton.mp hself]
              exact .inr List.mem_cons_self
          · exact .inr (List.mem_cons_of_mem _ hkept)

/-- No variable is kept twice. -/
theorem keep_nodup (seen : List ℕ) (lits : Cube) :
    ((keep seen lits).map Int.natAbs).Nodup ∧ ∀ l ∈ keep seen lits, l.natAbs ∉ seen := by
  induction lits generalizing seen with
  | nil => exact ⟨List.nodup_nil, fun l hl => absurd hl List.not_mem_nil⟩
  | cons k lits ih =>
      rw [keep]
      split
      · exact ih seen
      · rename_i hk
        obtain ⟨hnodup, hfresh⟩ := ih (seen ++ [k.natAbs])
        refine ⟨List.nodup_cons.mpr ⟨fun hmem => ?_, hnodup⟩, fun l hl => ?_⟩
        · obtain ⟨l, hl, hlk⟩ := List.mem_map.mp hmem
          exact hfresh l hl (hlk ▸ List.mem_append_right _ List.mem_cons_self)
        · rcases List.mem_cons.mp hl with rfl | hl
          · exact hk
          · exact fun hseen => hfresh l hl (List.mem_append_left _ hseen)

theorem cubeTrue_firstLits {lits : Cube} (h : cubeTrue a lits = true) :
    cubeTrue a (firstLits lits) = true :=
  cubeTrue_iff.mpr fun l hl => cubeTrue_iff.mp h l (keep_subset [] lits l hl)

/-- A cube with at most one literal too many keeps all others. -/
theorem length_le_firstLits {lits vars : List ℤ} (hnodup : (vars.map Int.natAbs).Nodup)
    (hsub : ∀ l ∈ vars, l ∈ lits) : vars.length ≤ (firstLits lits).length := by
  have hcover : vars.map Int.natAbs ⊆ (firstLits lits).map Int.natAbs := by
    intro v hv
    obtain ⟨l, hl, rfl⟩ := List.mem_map.mp hv
    exact (keep_covers [] lits l (hsub l hl)).resolve_left List.not_mem_nil
  have hle := (List.subperm_of_subset hnodup hcover).length_le
  rwa [List.length_map, List.length_map] at hle

/-! ### The filled propagator -/

/-- The variables of the trail are distinct, and they are the assigned ones. -/
structure Filled (F : List Clause) (n : ℕ) (P : Propagator) : Prop where
  ok : P.Ok F n
  assigned : ∀ l ∈ P.trail, P.assigned l.natAbs ≠ 0
  nodup : (P.trail.map Int.natAbs).Nodup

theorem Filled.open_iff {P : Propagator} (h : Filled F n P) (l : ℤ) :
    1 < P.value l ↔ l.natAbs ∉ P.trail.map Int.natAbs := by
  have htwo : 1 < P.value l ↔ P.assigned l.natAbs = 0 := by
    rw [← Propagator.value_eq_two]
    have hle := @Propagator.value_le_two P l
    omega
  rw [htwo]
  constructor
  · intro hzero hmem
    obtain ⟨k, hk, hkl⟩ := List.mem_map.mp hmem
    exact h.assigned k hk (by rw [hkl]; exact hzero)
  · intro hmem
    by_contra hne
    rcases h.ok.grounded _ hne with ⟨-, htrail⟩ | ⟨-, htrail⟩
    · exact hmem (List.mem_map.mpr ⟨_, htrail, Int.natAbs_natCast _⟩)
    · exact hmem (List.mem_map.mpr ⟨_, htrail, by rw [Int.natAbs_neg, Int.natAbs_natCast]⟩)

theorem Filled.enqueue {P : Propagator} (h : Filled F n P) {l : ℤ} (hl : l.natAbs ≤ n)
    (hopen : l.natAbs ∉ P.trail.map Int.natAbs) : Filled F n (P.uncheckedEnqueue l) where
  ok := h.ok.enqueue hl
  assigned k hk := by
    refine Propagator.assigned_enqueue_ne_zero (by rw [h.ok.size]; omega) fun hkl => ?_
    rcases List.mem_append.mp hk with hk | hk
    · exact h.assigned k hk
    · exact absurd (congrArg Int.natAbs (List.mem_singleton.mp hk)) hkl
  nodup := by
    show ((P.trail ++ [l]).map Int.natAbs).Nodup
    rw [List.map_append]
    refine h.nodup.append (List.nodup_singleton _) fun v hv hv' => hopen ?_
    rwa [← List.mem_singleton.mp hv']

theorem Filled.fill {P : Propagator} (h : Filled F n P) {lits : Cube}
    (hlits : ∀ l ∈ lits, l.natAbs ≤ n) :
    Filled F n (fill P lits) ∧
      (fill P lits).trail = P.trail ++ keep (P.trail.map Int.natAbs) lits := by
  unfold CubeGenCli.fill
  induction lits generalizing P with
  | nil => exact ⟨h, (List.append_nil _).symm⟩
  | cons l lits ih =>
      obtain ⟨hl, hlits⟩ := List.forall_mem_cons.mp hlits
      rw [List.foldl_cons, keep]
      by_cases hmem : l.natAbs ∈ P.trail.map Int.natAbs
      · rw [if_neg fun hopen => (h.open_iff l).mp hopen hmem, if_pos hmem]
        exact ih h hlits
      · rw [if_pos ((h.open_iff l).mpr hmem), if_neg hmem]
        obtain ⟨hfilled, htrail⟩ := ih (h.enqueue hl hmem) hlits
        refine ⟨hfilled, htrail.trans ?_⟩
        show (P.trail ++ [l]) ++ keep ((P.trail ++ [l]).map Int.natAbs) lits = _
        rw [List.map_append, List.append_assoc]
        rfl

theorem Filled.restart {P : Propagator} (h : P.Ok F n) : Filled F n P.restart :=
  ⟨h.restart, fun _ hl => absurd hl List.not_mem_nil, List.nodup_nil⟩

/-- Propagation keeps the trail in step with the assignment. -/
theorem Filled.extends {P Q : Propagator} (h : Filled F n P) (hQ : Q.Ok F n) {more : List ℤ}
    (hext : Propagator.Extends F P Q more) : Filled F n Q := by
  refine ⟨hQ, hext.set_trail h.assigned, ?_⟩
  rw [hext.trail]
  exact hext.nodup_append h.nodup h.assigned

/-- **The refilled propagator** after propagation: the trail stands for the first literals of the
cube. -/
theorem refill_spec (hF : InRange n F) {P : Propagator} (h : P.Ok F n) {lits : Cube}
    (hlits : ∀ l ∈ lits, l.natAbs ≤ n) :
    Filled F n (fill P.restart lits).propagate.2 ∧
      (∀ a, formulaTrue a F = true →
        cubeTrue a (fill P.restart lits).propagate.2.trail = cubeTrue a (firstLits lits)) ∧
      firstLits lits <+: (fill P.restart lits).propagate.2.trail := by
  obtain ⟨hfilled, htrail⟩ := (Filled.restart h).fill hlits
  have hkeep : (fill P.restart lits).trail = firstLits lits := htrail
  obtain ⟨more, hext⟩ := (Propagator.propagate_extends hF hfilled.ok).1.adds
  have hok := (Propagator.propagate_extends hF hfilled.ok).1.stays
  refine ⟨hfilled.extends hok hext, fun a ha => ?_, ?_⟩
  · rw [hext.cubeTrue_eq ha, hkeep]
  · rw [hext.trail, hkeep]
    exact List.prefix_append _ _

/-! ### One branch -/

/-- What holds of a queued cube: its variables are those of the formula, and at most one literal
repeats a variable. -/
structure Queued (n : ℕ) (c : Cube) : Prop where
  inRange : ∀ l ∈ c, l.natAbs ≤ n
  distinct : c.length ≤ (firstLits c).length + 1

/-- A queued cube has every variable once, and one of them at most once more. -/
theorem Queued.length_le {c : Cube} (hc : Queued n c) : c.length ≤ n + 2 := by
  have hrange : (firstLits c).map Int.natAbs ⊆ List.range (n + 1) := by
    intro v hv
    obtain ⟨l, hl, rfl⟩ := List.mem_map.mp hv
    exact List.mem_range.mpr (Nat.lt_succ_of_le (hc.inRange l (keep_subset [] c l hl)))
  have hle := (List.subperm_of_subset (keep_nodup [] c).1 hrange).length_le
  rw [List.length_map, List.length_range] at hle
  exact hc.distinct.trans (Nat.add_le_add_right hle 1)

theorem assigned_inRange {P : Propagator} (h : P.Ok F n) {v : ℕ} (hv : P.assigned v ≠ 0) : v ≤ n := by
  by_contra hlt
  refine hv (List.getD_eq_default _ _ ?_)
  rw [h.size]
  omega

/-- A decision leaves the trail assigned, also if it is on a variable of the trail. -/
theorem Filled.decided {P : Propagator} (h : Filled F n P) {l : ℤ} (hl : l.natAbs ≤ n) :
    ∀ k ∈ P.trail, (P.uncheckedEnqueue l).assigned k.natAbs ≠ 0 := fun k hk =>
  Propagator.assigned_enqueue_ne_zero (by rw [h.ok.size]; omega) fun _ => h.assigned k hk

/-- The state after a branch on `l` from a propagator with trail `t`. -/
structure Branched (F : List Clause) (n : ℕ) (s s' : State) (l : ℤ) : Prop where
  ok : s'.propagator.Ok F n
  adds : ∃ more, Propagator.Extends F (s.propagator.uncheckedEnqueue l) s'.propagator more
  hits : ∀ a, formulaTrue a F = true →
    hits a s'.queue = hits a s.queue + hits a [s.propagator.trail ++ [l]]
  cubes : s'.cubes = s.cubes
  queued : (∀ c ∈ s.queue, Queued n c) → ∀ c ∈ s'.queue, Queued n c
  front : ∀ top rest, s.queue = top :: rest → top.length ≤ s.propagator.trail.length + 1 →
    ∃ rest', s'.queue = top :: rest'

/-- The trail of a branch, after propagation, can be queued: only the decision may repeat a
variable. -/
theorem queued_trail {P Q : Propagator} {l : ℤ} {more : List ℤ} (hQ : Q.Ok F n)
    (hl : l.natAbs < P.assign.length) (hnodup : (P.trail.map Int.natAbs).Nodup)
    (hall : ∀ k ∈ P.trail, (P.uncheckedEnqueue l).assigned k.natAbs ≠ 0)
    (hext : Propagator.Extends F (P.uncheckedEnqueue l) Q more) : Queued n Q.trail := by
  have htrail : Q.trail = (P.trail ++ [l]) ++ more := hext.trail
  have hset : ∀ k ∈ Q.trail, Q.assigned k.natAbs ≠ 0 := by
    refine hext.set_trail fun k hk => ?_
    rcases List.mem_append.mp hk with hk | hk
    · exact hall k hk
    · rw [List.mem_singleton.mp hk]
      exact Propagator.assigned_enqueue_ne_zero hl (absurd rfl)
  have hvars : ((P.trail ++ more).map Int.natAbs).Nodup := hext.nodup_append hnodup hall
  have hkept : (P.trail ++ more).length ≤ (firstLits Q.trail).length := by
    refine length_le_firstLits hvars fun k hk => ?_
    rw [htrail]
    rcases List.mem_append.mp hk with hk | hk
    · exact List.mem_append_left _ (List.mem_append_left _ hk)
    · exact List.mem_append_right _ hk
  refine ⟨fun k hk => assigned_inRange hQ (hset k hk), ?_⟩
  have hlen : Q.trail.length = P.trail.length + 1 + more.length := by
    rw [htrail, List.length_append, List.length_append, List.length_singleton]
  rw [List.length_append] at hkept
  omega

/-- A cube that is no shorter than the front of the heap is not put in front of it. -/
theorem push_front {queue rest : List Cube} {top c : Cube} (hq : queue = top :: rest)
    (hlen : top.length ≤ c.length) : ∃ rest', BinaryHeap.push heavier queue c = top :: rest' := by
  have hle : heavier top c = false := decide_eq_false (by omega)
  rw [hq]
  exact List.head?_eq_some_iff.mp (BinaryHeap.push_head hle)

/-- **A branch queues the models of its decision**, or prunes it when there are none. -/
theorem branch_spec (hF : InRange n F) {s : State} {l : ℤ} (hok : s.propagator.Ok F n) (hl : l.natAbs ≤ n)
    (hnodup : (s.propagator.trail.map Int.natAbs).Nodup)
    (hall : ∀ k ∈ s.propagator.trail, (s.propagator.uncheckedEnqueue l).assigned k.natAbs ≠ 0) :
    Branched F n s (branch s l) l := by
  have henq := hok.enqueue hl
  obtain ⟨hstep, -⟩ := Propagator.propagate_extends hF henq
  obtain ⟨more, hext⟩ := hstep.adds
  have htrue : ∀ a, formulaTrue a F = true →
      cubeTrue a (s.propagator.uncheckedEnqueue l).propagate.2.trail =
        cubeTrue a (s.propagator.trail ++ [l]) := fun a ha => hext.cubeTrue_eq ha
  have htrail : (s.propagator.uncheckedEnqueue l).propagate.2.trail =
      (s.propagator.trail ++ [l]) ++ more := hext.trail
  unfold branch
  split
  · rename_i Q hQ
    rw [hQ] at hstep hext htrue htrail
    have hpush : (BinaryHeap.push heavier s.queue Q.trail).Perm (Q.trail :: s.queue) :=
      BinaryHeap.push_perm s.queue Q.trail
    refine ⟨hstep.stays, ⟨more, hext⟩, fun a ha => ?_, rfl, fun hq c hc => ?_, ?_⟩
    · have hcons := hits_append (a := a) [Q.trail] s.queue
      show hits a (BinaryHeap.push heavier s.queue Q.trail) = _
      rw [hits_perm hpush]
      have hsame : hits a [Q.trail] = hits a [s.propagator.trail ++ [l]] := by
        rw [hits_singleton, hits_singleton, htrue a ha]
      rw [← hsame, Nat.add_comm]
      exact hcons
    · rcases List.mem_cons.mp (hpush.subset hc) with rfl | hc
      · exact queued_trail hstep.stays (by rw [hok.size]; omega) hnodup hall hext
      · exact hq c hc
    · intro top rest hq hlen
      refine push_front hq ?_
      rw [htrail, List.length_append, List.length_append, List.length_singleton]
      omega
  · rename_i Q hQ
    rw [hQ] at hstep hext htrue
    refine ⟨hstep.stays, ⟨more, hext⟩, fun a ha => ?_, rfl, fun hq => hq, fun top rest hq _ => ⟨rest, hq⟩⟩
    have hnone : cubeTrue a (s.propagator.trail ++ [l]) = false := by
      rw [← htrue a ha]
      exact hstep.conflict rfl a ha
    rw [hits_singleton, hnone]
    rfl

/-! ### One expansion -/

/-- A model of the first literals of a cube that is no model of the cube. -/
def regained (a : Assignment) (c : Cube) : Bool := cubeTrue a (firstLits c) && !cubeTrue a c

/-- What the loop keeps. -/
structure State.Inv (F : List Clause) (n : ℕ) (s : State) : Prop where
  ok : s.propagator.Ok F n
  queued : ∀ c ∈ s.queue, Queued n c

/-- All cubes there are. -/
def State.covers (a : Assignment) (s : State) : ℕ := hits a s.cubes + hits a s.queue

theorem queued_pop {queue rest : List Cube} {top : Cube} (h : queue = top :: rest)
    (hq : ∀ c ∈ queue, Queued n c) : ∀ c ∈ BinaryHeap.pop heavier queue, Queued n c := by
  intro c hc
  rw [h] at hc
  exact hq c (by rw [h]; exact List.mem_cons_of_mem top ((BinaryHeap.pop_perm top rest).subset hc))

/-- **Backtracking out of a branch** gives the trail before it; only the variable of its decision
may have lost its value. -/
theorem Branched.backtrack {s s' : State} {l : ℤ} (h : Branched F n s s' l)
    (hfilled : Filled F n s.propagator) :
    (s'.propagator.cancelUntilPos s.propagator.trail.length).trail = s.propagator.trail ∧
      ∀ k ∈ s.propagator.trail, k.natAbs ≠ l.natAbs →
        (s'.propagator.cancelUntilPos s.propagator.trail.length).assigned k.natAbs ≠ 0 := by
  obtain ⟨more, hext⟩ := h.adds
  have htrail : s'.propagator.trail = s.propagator.trail ++ (l :: more) := by
    rw [hext.trail]
    exact List.append_assoc _ _ _
  refine ⟨?_, fun k hk hkl => ?_⟩
  · show s'.propagator.trail.take s.propagator.trail.length = _
    rw [htrail, List.take_left]
  · have hset : (s.propagator.uncheckedEnqueue l).assigned k.natAbs ≠ 0 := by
      rw [Propagator.assigned_enqueue_of_ne hkl]
      exact hfilled.assigned k hk
    have hdrop : s'.propagator.trail.drop s.propagator.trail.length = l :: more := by
      rw [htrail, List.drop_left]
    show (Propagator.unassign _ (s'.propagator.trail.drop _).reverse).getD _ 0 ≠ 0
    rw [Propagator.unassign_getD, hdrop, if_neg]
    · show s'.propagator.assigned k.natAbs ≠ 0
      rwa [hext.assigned_eq hset]
    · intro hmem
      obtain ⟨j, hj, hjk⟩ := List.mem_map.mp hmem
      rcases List.mem_cons.mp (List.mem_reverse.mp hj) with rfl | hj
      · exact hkl hjk.symm
      · exact hext.avoids hset (by rw [← hjk]; exact List.mem_map_of_mem hj)

/-- The opposite decision assigns that variable again. -/
theorem Branched.decided {s s' : State} {l : ℤ} (h : Branched F n s s' l)
    (hfilled : Filled F n s.propagator) (hl : l.natAbs ≤ n) :
    ∀ k ∈ (s'.propagator.cancelUntilPos s.propagator.trail.length).trail,
      ((s'.propagator.cancelUntilPos s.propagator.trail.length).uncheckedEnqueue (-l)).assigned
        k.natAbs ≠ 0 := by
  intro k hk
  obtain ⟨hback, hstill⟩ := h.backtrack hfilled
  have hok := h.ok.cancel s.propagator.trail.length
  refine Propagator.assigned_enqueue_ne_zero (by rw [hok.size]; omega) fun hkl => ?_
  exact hstill k (by rwa [hback] at hk) (by rwa [Int.natAbs_neg] at hkl)

/-- The state between the two branches. -/
def between (s : State) (v : ℕ) : State :=
  { branch s v with
    propagator := (branch s v).propagator.cancelUntilPos s.propagator.trail.length }

/-- Both branches of a split start from the same trail, and the expanded cube stays in front. -/
theorem split_branches (hF : InRange n F) {s : State} (hfilled : Filled F n s.propagator)
    {top : Cube} {rest : List Cube} (hq : s.queue = top :: rest)
    (hlen : top.length ≤ s.propagator.trail.length + 1) {v : ℕ} (hvn : v ≤ n) :
    Branched F n s (branch s v) v ∧ (between s v).propagator.trail = s.propagator.trail ∧
      Branched F n (between s v) (branch (between s v) (-v)) (-v) ∧
      ∃ rest', (branch (between s v) (-v)).queue = top :: rest' := by
  have hpos := branch_spec hF (l := (v : ℤ)) hfilled.ok (by omega) hfilled.nodup
    (hfilled.decided (by omega))
  obtain ⟨hback, -⟩ := hpos.backtrack hfilled
  have hneg := branch_spec hF (s := between s v) (l := -(v : ℤ)) (hpos.ok.cancel _) (by omega)
    (by rw [between, hback]; exact hfilled.nodup) (hpos.decided hfilled (by omega))
  obtain ⟨rest₁, hq₁⟩ := hpos.front top rest hq hlen
  exact ⟨hpos, hback, hneg, hneg.front top rest₁ hq₁ (by rw [between, hback]; exact hlen)⟩

/-- The trails of both branches can be queued, also where the propagation of the branch ends in a
conflict. -/
theorem split_trails (hF : InRange n F) {s : State} (hfilled : Filled F n s.propagator)
    {top : Cube} {rest : List Cube} (hq : s.queue = top :: rest)
    (hlen : top.length ≤ s.propagator.trail.length + 1) {v : ℕ} (hvn : v ≤ n) :
    Queued n (posStart s.propagator v).propagate.2.trail ∧
      Queued n (negStart s.propagator v).propagate.2.trail := by
  obtain ⟨hpos, hback, hneg, -⟩ := split_branches hF hfilled hq hlen hvn
  obtain ⟨more, hext⟩ := hpos.adds
  obtain ⟨more', hext'⟩ := hneg.adds
  have hsize : (between s v).propagator.assign.length = n + 1 := (hpos.ok.cancel _).size
  have hposEnd : (posStart s.propagator v).propagate.2 = (branch s v).propagator :=
    (branch_propagator s v).symm
  have hnegEnd : (negStart s.propagator v).propagate.2 = (branch (between s v) (-v)).propagator := by
    rw [branch_propagator, negStart, hposEnd]
    rfl
  rw [hposEnd, hnegEnd]
  constructor
  · exact queued_trail hpos.ok (by rw [hfilled.ok.size]; omega) hfilled.nodup
      (hfilled.decided (by omega)) hext
  · exact queued_trail (P := (between s v).propagator) hneg.ok (by rw [hsize]; omega)
      (by rw [hback]; exact hfilled.nodup) (hpos.decided hfilled (by omega)) hext'

/-- **Splitting.**  Both branches together queue the models of the trail, and the pop removes the
expanded cube. -/
theorem split_spec (hF : InRange n F) {s : State} (hfilled : Filled F n s.propagator)
    (hqueued : ∀ c ∈ s.queue, Queued n c) {top : Cube} {rest : List Cube} (hq : s.queue = top :: rest)
    (hlen : top.length ≤ s.propagator.trail.length + 1) {v : ℕ} (hv : v ≠ 0) (hvn : v ≤ n) :
    (split s v).Inv F n ∧ ∀ a, formulaTrue a F = true →
      (split s v).covers a + hits a [top] = s.covers a + hits a [s.propagator.trail] := by
  obtain ⟨hpos, hback, hneg, rest', hq'⟩ := split_branches hF hfilled hq hlen hvn
  refine ⟨⟨hneg.ok, queued_pop hq' (hneg.queued (hpos.queued hqueued))⟩, fun a ha => ?_⟩
  have hbetween : hits a (between s v).queue = hits a (branch s v).queue := rfl
  have hhits := hneg.hits a ha
  rw [hback, hbetween, hpos.hits a ha] at hhits
  have hcubes : (branch (between s v) (-v)).cubes = s.cubes := hneg.cubes.trans hpos.cubes
  have hsplit : hits a [s.propagator.trail ++ [(v : ℤ)]] + hits a [s.propagator.trail ++ [-(v : ℤ)]] =
      hits a [s.propagator.trail] :=
    (hits_append [_] [_]).symm.trans (hits_split (Int.natCast_ne_zero.mpr hv))
  have hpop : hits a [_] + hits a (BinaryHeap.pop heavier (branch (between s v) (-v)).queue) =
      hits a (branch (between s v) (-v)).queue := BinaryHeap.countP_pop hq'
  rw [hhits] at hpop
  have hdone : (split s v).covers a = hits a s.cubes +
      hits a (BinaryHeap.pop heavier (branch (between s v) (-v)).queue) :=
    congrArg (fun cs => hits a cs + _) hcubes
  rw [hdone, State.covers]
  omega

theorem fill_unsat (P : Propagator) (lits : Cube) : (fill P lits).unsat = P.unsat := by
  unfold fill
  induction lits generalizing P with
  | nil => rfl
  | cons l lits ih =>
      rw [List.foldl_cons, ih]
      split <;> rfl

/-- The heuristic returns a variable of the formula outside the cube. -/
theorem next_spec {cfg : Config} {lits : Cube} {v : ℕ} (h : next cfg lits = some v) :
    v ≠ 0 ∧ v ≤ cfg.nbVar ∧ v ∉ lits.map Int.natAbs := by
  have hfold : ∀ (vs : List ℕ) (best : Option ℕ × ℚ), (vs.foldl (consider cfg lits) best).1 = some v →
      best.1 = some v ∨ (v ∈ vs ∧ v ∉ lits.map Int.natAbs) := by
    intro vs
    induction vs with
    | nil => exact fun best h => .inl h
    | cons w vs ih =>
        intro best h
        rcases ih _ h with hbest | ⟨hmem, hout⟩
        · unfold consider at hbest
          split at hbest
          · exact .inl hbest
          · rename_i hw
            split at hbest
            · obtain rfl := Option.some.inj hbest
              exact .inr ⟨List.mem_cons_self, hw⟩
            · exact .inl hbest
        · exact .inr ⟨List.mem_cons_of_mem w hmem, hout⟩
  rcases hfold _ _ h with hnone | ⟨hmem, hout⟩
  · exact nomatch hnone
  · have hrange := List.mem_range'_1.mp hmem
    exact ⟨by omega, by omega, hout⟩

/-- The cube at the top of the queue, if the heuristic finds a variable to split it on. -/
def State.splitting (cfg : Config) (s : State) : List Cube :=
  s.queue.head?.toList.filter fun c => (next cfg c).isSome

theorem toNat_firstLits (c : Cube) : hits a [firstLits c] = hits a [c] + (regained a c).toNat := by
  rw [hits_singleton, hits_singleton, regained]
  cases hc : cubeTrue a c with
  | true => rw [cubeTrue_firstLits hc]; rfl
  | false => rw [Bool.not_false, Bool.and_true]; exact (Nat.zero_add _).symm

/-- An assignment that falsifies one of the first literals neither satisfies nor regains the cube. -/
theorem unregained {c : Cube} (h : cubeTrue a (firstLits c) = false) :
    regained a c = false ∧ hits a [c] = 0 := by
  constructor
  · rw [regained, h]
    exact Bool.false_and _
  · have hsum := toNat_firstLits (a := a) c
    rw [hits_singleton, h] at hsum
    exact (Nat.add_eq_zero_iff.mp hsum.symm).1

/-- The expanded cube counts as regained only if it is split. -/
theorem State.countP_splitting {cfg : Config} {s : State} {top : Cube} {rest : List Cube}
    (hq : s.queue = top :: rest) : (s.splitting cfg).countP (regained a) =
      if (next cfg top).isSome then (regained a top).toNat else 0 := by
  have hhead : s.queue.head?.toList = [top] := by rw [hq]; rfl
  rw [State.splitting, hhead]
  cases hnext : (next cfg top).isSome with
  | true =>
      simp only [List.filter_cons, hnext, if_true, List.filter_nil, List.countP_cons, List.countP_nil]
      cases regained a top <;> rfl
  | false => simp [hnext]

/-- A conflict in the refill means that no model has the first literals of the cube. -/
theorem refill_conflict (hF : InRange n F) {P : Propagator} (h : P.Ok F n) {lits : Cube}
    (hlits : ∀ l ∈ lits, l.natAbs ≤ n)
    (hconflict : (fill P.restart lits).propagate.1 = false ∨
      (fill P.restart lits).propagate.2.unsat = true) (ha : formulaTrue a F = true) :
    cubeTrue a (firstLits lits) = false := by
  obtain ⟨-, hmodels, -⟩ := refill_spec hF h hlits
  obtain ⟨hstep, hunsat⟩ := Propagator.propagate_extends hF ((Filled.restart h).fill hlits).1.ok
  rw [fill_unsat] at hunsat
  have hfalse : (fill P.restart lits).propagate.1 = false := by
    refine Bool.eq_false_iff.mpr fun hok => ?_
    rcases hconflict with hfalse | htrue
    · exact absurd (hok.symm.trans hfalse) Bool.noConfusion
    · exact absurd (htrue.symm.trans (hunsat hok)) Bool.noConfusion
  exact (hmodels a ha).symm.trans (hstep.conflict hfalse a ha)

/-- **One expansion** covers every model as often as before, and once more if it regains it. -/
theorem createCubes_hits {cfg : Config} (hF : InRange cfg.nbVar cfg.clauses) {s : State}
    (h : s.Inv cfg.clauses cfg.nbVar) :
    (createCubes cfg s).Inv cfg.clauses cfg.nbVar ∧ ∀ a, formulaTrue a cfg.clauses = true →
      (createCubes cfg s).covers a = s.covers a + (s.splitting cfg).countP (regained a) := by
  rcases hq : s.queue with _ | ⟨top, rest⟩
  · have hstay : createCubes cfg s = s := by rw [createCubes, hq]
    rw [hstay, State.splitting, hq]
    exact ⟨h, fun a _ => rfl⟩
  have htop := h.queued top (by rw [hq]; exact List.mem_cons_self)
  obtain ⟨hfilled, hmodels, hkept⟩ := refill_spec hF h.ok htop.inRange
  rcases createCubes_cases cfg hq with ⟨hconflict, heq⟩ | ⟨hnext, heq⟩ | ⟨v, hnext, -, -, heq⟩
  · -- the cube is pruned
    rw [heq]
    refine ⟨⟨hfilled.ok, queued_pop hq h.queued⟩, fun a ha => ?_⟩
    obtain ⟨hreg, htopnone⟩ := unregained (refill_conflict hF h.ok htop.inRange hconflict ha)
    have hpop : hits a [top] + hits a (BinaryHeap.pop heavier s.queue) = hits a s.queue :=
      BinaryHeap.countP_pop hq
    rw [State.countP_splitting hq, hreg, Bool.toNat_false, ite_self]
    show hits a s.cubes + hits a (BinaryHeap.pop heavier s.queue) = hits a s.cubes + hits a s.queue + 0
    omega
  · -- the cube is put aside
    rw [heq]
    refine ⟨⟨hfilled.ok, queued_pop hq h.queued⟩, fun a ha => ?_⟩
    have hpop : hits a [top] + hits a (BinaryHeap.pop heavier s.queue) = hits a s.queue :=
      BinaryHeap.countP_pop hq
    rw [State.countP_splitting hq, hnext]
    show hits a (s.cubes ++ [top]) + hits a (BinaryHeap.pop heavier s.queue) = _ + 0
    rw [hits_append, State.covers]
    omega
  · obtain ⟨hv, hvn, -⟩ := next_spec hnext
    obtain ⟨hinv, hcovers⟩ := split_spec hF (s := { s with propagator := refilled s top }) hfilled
      h.queued hq (htop.distinct.trans (Nat.add_le_add_right hkept.length_le 1)) hv hvn
    rw [heq]
    refine ⟨hinv, fun a ha => ?_⟩
    have hsum := hcovers a ha
    have hsame : hits a [(refilled s top).trail] = hits a [firstLits top] := by
      rw [hits_singleton, hits_singleton]
      exact congrArg Bool.toNat (hmodels a ha)
    have hs : State.covers a { s with propagator := refilled s top } = s.covers a := rfl
    rw [hsame, toNat_firstLits, hs] at hsum
    rw [State.countP_splitting hq, hnext, Option.isSome_some, if_pos rfl]
    omega

/-! ### The whole run -/

/-- The cubes that the loop splits. -/
def expanded (cfg : Config) : ℕ → State → List Cube
  | 0, _ => []
  | budget + 1, s =>
      if s.queue.length < cfg.numCubes ∧ s.queue ≠ [] then
        s.splitting cfg ++ expanded cfg budget (createCubes cfg s)
      else []

theorem loop_hits {cfg : Config} (hF : InRange cfg.nbVar cfg.clauses) (budget : ℕ) (s : State)
    (h : s.Inv cfg.clauses cfg.nbVar) (ha : formulaTrue a cfg.clauses = true) :
    (loop cfg budget s).covers a = s.covers a + (expanded cfg budget s).countP (regained a) := by
  induction budget generalizing s with
  | zero => rfl
  | succ budget ih =>
      rw [loop, expanded]
      split
      · obtain ⟨hinv, hcovers⟩ := createCubes_hits hF h
        rw [ih _ hinv, hcovers a ha, List.countP_append, Nat.add_assoc]
      · rfl

theorem drain_hits (fuel : ℕ) (queue cubes : List Cube) (hfuel : queue.length ≤ fuel) :
    hits a (drain fuel queue cubes) = hits a cubes + hits a queue := by
  induction fuel generalizing queue cubes with
  | zero =>
      rw [List.eq_nil_of_length_eq_zero (Nat.le_zero.mp hfuel)]
      rfl
  | succ fuel ih =>
      cases queue with
      | nil => rfl
      | cons top rest =>
          have hpop : hits a [top] + hits a (BinaryHeap.pop heavier (top :: rest)) =
              hits a (top :: rest) := BinaryHeap.countP_pop rfl
          have hlen : (BinaryHeap.pop heavier (top :: rest)).length = rest.length :=
            (BinaryHeap.pop_perm top rest).length_eq
          rw [List.length_cons] at hfuel
          rw [drain, ih _ _ (by omega), hits_append]
          omega

/-- There is nothing to propagate in the beginning. -/
theorem propagate_new (nbVar : ℕ) (clauses : List Clause) :
    (Propagator.new nbVar clauses).propagate.2 = Propagator.new nbVar clauses := by
  show (Propagator.propagateLoop (0 + (List.replicate (nbVar + 1) (0 : ℤ)).length) _).2 = _
  rw [List.length_replicate]
  rfl

theorem init_inv (cfg : Config) (hF : InRange cfg.nbVar cfg.clauses) :
    (init cfg).Inv cfg.clauses cfg.nbVar ∧
      ∀ a, formulaTrue a cfg.clauses = true → (init cfg).covers a = 1 := by
  have hok := (Propagator.propagate_extends hF (Propagator.new_ok cfg.nbVar cfg.clauses)).1.stays
  have hqueue : (init cfg).queue = [[]] := by
    rw [init, propagate_new]
    rfl
  refine ⟨⟨hok, ?_⟩, fun a _ => ?_⟩
  · rw [hqueue]
    intro c hc
    rw [List.mem_singleton.mp hc]
    exact ⟨fun l hl => absurd hl List.not_mem_nil, Nat.zero_le _⟩
  · rw [State.covers, hqueue]
    rfl

/-- **How often a model is covered**: once, and once more for every expansion that regained it. -/
theorem generate_hits {cfg : Config} (hF : InRange cfg.nbVar cfg.clauses) (budget : ℕ)
    (ha : formulaTrue a cfg.clauses = true) :
    hits a (generate cfg budget) = 1 + (expanded cfg budget (init cfg)).countP (regained a) := by
  obtain ⟨hinv, hone⟩ := init_inv cfg hF
  have hloop := loop_hits hF budget (init cfg) hinv ha
  rw [hone a ha] at hloop
  rw [generate, drain_hits _ _ _ (le_refl _)]
  exact hloop

/-- **The returned cubes partition the models** of the formula if and only if no model satisfies the
first literals of a cube that is split without satisfying the cube. -/
theorem generate_partition_iff (cfg : Config) (hF : InRange cfg.nbVar cfg.clauses) (budget : ℕ) :
    (∀ a, formulaTrue a cfg.clauses = true → hits a (generate cfg budget) = 1) ↔
      ∀ c ∈ expanded cfg budget (init cfg), ∀ a, formulaTrue a cfg.clauses = true →
        cubeTrue a (firstLits c) = true → cubeTrue a c = true := by
  constructor
  · intro hone c hc a ha hfirst
    have hzero : (expanded cfg budget (init cfg)).countP (regained a) = 0 := by
      have hhits := generate_hits hF budget ha
      have := hone a ha
      omega
    have hreg := List.countP_eq_zero.mp hzero c hc
    rw [regained, hfirst] at hreg
    simpa using hreg
  · intro hkeep a ha
    have hzero : (expanded cfg budget (init cfg)).countP (regained a) = 0 := by
      refine List.countP_eq_zero.mpr fun c hc hreg => ?_
      obtain ⟨hfirst, hnot⟩ := Bool.and_eq_true_iff.mp hreg
      rw [hkeep c hc a ha hfirst] at hnot
      exact Bool.noConfusion hnot
    rw [generate_hits hF budget ha, hzero]

/-! ### A formula that is covered twice -/

/-- Seven clauses over five variables, without a partial order, and twelve cubes to find. -/
def sevenClauses : Config :=
  { nbVar := 5
    clauses := [[-1, -4, -5], [1, 4, 5], [2, 3, 5], [-4, 3, -2, -5], [3, -1], [2, -5, 4], [-3, -2, -4]]
    getLevel := levelNone
    numCubes := 12 }

theorem sevenClauses_inRange : InRange sevenClauses.nbVar sevenClauses.clauses := by
  unfold InRange
  decide

/-- Three expansions split no cube with a variable in it twice. -/
theorem generate_partition_iff_sevenClauses :
    generate sevenClauses 3 = [[3, -4], [-3, -1], [3, 4, 5], [3, 4, -5]] ∧
      ∀ a, formulaTrue a sevenClauses.clauses = true → hits a (generate sevenClauses 3) = 1 := by
  have hfirst : ∀ c ∈ expanded sevenClauses 3 (init sevenClauses), firstLits c = c := by decide +kernel
  refine ⟨by decide +kernel, (generate_partition_iff sevenClauses sevenClauses_inRange 3).mpr ?_⟩
  intro c hc a _ hself
  rwa [hfirst c hc] at hself

/-- Variables 1 and 3 are true, the others false. -/
def oneAndThree : Assignment := fun v => v == 1 || v == 3

/-- **A model in two cubes.**  Given the time, the loop ends by itself with twelve cubes. -/
theorem generate_covers_twice : ¬∀ a, formulaTrue a sevenClauses.clauses = true →
    hits a (generate sevenClauses 40) = 1 := by
  intro hclaim
  have htwo : hits oneAndThree (generate sevenClauses 40) = 2 := by decide +kernel
  have hmodel : formulaTrue oneAndThree sevenClauses.clauses = true := by decide
  rw [hclaim oneAndThree hmodel] at htwo
  exact absurd htwo (by decide)

end HydraSAT.CubeGenCli
