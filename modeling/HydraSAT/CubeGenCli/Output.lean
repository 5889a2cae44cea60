import HydraSAT.CubeGenCli.Termination
import HydraSAT.Lib.HeapOrder
import Mathlib.Tactic.Positivity

/-!
# What cube_gen returns

The queue is a heap at the head of every iteration, so that the loop expands a shortest cube and the final
loop pops the cubes in order of length.  Every expansion changes the size of the queue by at most one.

* `generate_shortest_first`: which cube is expanded, and the order of the result;
* `generate_size`: how many cubes there are, and what the cubes are that were put aside.
-/

namespace HydraSAT.CubeGenCli

open HydraSAT.Lib

variable {s s' : State} {top : Cube} {rest : List Cube} {cfg : Config}

/-! ### The order of the queue -/

theorem weighs_heavier : BinaryHeap.Weighs heavier := BinaryHeap.weighs_of_weight List.length

theorem branch_isHeap (h : BinaryHeap.IsHeap heavier s.queue) (l : ℤ) :
    BinaryHeap.IsHeap heavier (branch s l).queue := by
  unfold branch
  split
  · exact BinaryHeap.push_isHeap weighs_heavier h _
  · exact h

theorem split_isHeap (h : BinaryHeap.IsHeap heavier s.queue) (v : ℕ) :
    BinaryHeap.IsHeap heavier (split s v).queue := by
  have hpos : BinaryHeap.IsHeap heavier (between s v).queue := branch_isHeap h v
  exact BinaryHeap.pop_isHeap weighs_heavier (branch_isHeap hpos (-v))

theorem createCubes_isHeap (h : BinaryHeap.IsHeap heavier s.queue) (hq : s.queue = top :: rest) :
    BinaryHeap.IsHeap heavier (createCubes cfg s).queue := by
  have hpop := BinaryHeap.pop_isHeap weighs_heavier h
  rcases createCubes_cases cfg hq with ⟨-, heq⟩ | ⟨-, heq⟩ | ⟨v, -, -, -, heq⟩
  · rw [heq]
    exact hpop
  · rw [heq]
    exact hpop
  · rw [heq]
    exact split_isHeap (s := { s with propagator := refilled s top }) h v

theorem isHeap_of_reachable (hr : Reachable (State.step cfg) (init cfg) s) :
    BinaryHeap.IsHeap heavier s.queue := by
  refine hr.invariant (fun s => BinaryHeap.IsHeap heavier s.queue) ?_ fun s _ s' h _ hs => ?_
  · exact BinaryHeap.push_isHeap weighs_heavier (fun i p c _ hp _ => absurd hp (by simp)) _
  · obtain ⟨⟨top, rest, hq⟩, -, rfl⟩ := State.step_cases hs
    exact createCubes_isHeap h hq

theorem drain_eq (fuel : ℕ) (queue cubes : List Cube) :
    drain fuel queue cubes = cubes ++ BinaryHeap.drain heavier fuel queue := by
  induction fuel generalizing queue cubes with
  | zero => exact (List.append_nil cubes).symm
  | succ fuel ih =>
      cases queue with
      | nil => exact (List.append_nil cubes).symm
      | cons top rest =>
          rw [drain, ih, List.append_assoc]
          rfl

/-- **Shortest first.**  In every state of the loop the cube at the front is one of the shortest; and the
result is the cubes that were put aside, and behind them the queue in order of length. -/
theorem generate_shortest_first (cfg : Config) :
    (∀ s top rest, Reachable (State.step cfg) (init cfg) s → s.queue = top :: rest →
      ∀ c ∈ rest, top.length ≤ c.length) ∧
    ∀ budget, ∃ rest, generate cfg budget = (loop cfg budget (init cfg)).cubes ++ rest ∧
      rest.Perm (loop cfg budget (init cfg)).queue ∧
      rest.Pairwise fun c d => c.length ≤ d.length := by
  refine ⟨fun s top rest hr hq c hc => ?_, fun budget => ?_⟩
  · have hheap := isHeap_of_reachable hr
    rw [hq] at hheap
    have hfront := hheap.front weighs_heavier c (List.mem_cons_of_mem top hc)
    exact not_lt.mp (of_decide_eq_false hfront)
  · have hheap : BinaryHeap.IsHeap heavier (loop cfg budget (init cfg)).queue :=
      isHeap_of_reachable (loop_reachable budget (init cfg))
    refine ⟨_, drain_eq _ _ _, BinaryHeap.drain_perm _ _ (Nat.le_refl _), ?_⟩
    exact (BinaryHeap.drain_sorted weighs_heavier _ hheap (Nat.le_refl _)).imp fun h =>
      not_lt.mp (of_decide_eq_false h)

/-- Three cubes of two clauses. -/
def threeCubes : Config := { twoClauses with numCubes := 3 }

/-- The cube that is left at the front after two expansions is the shortest one, and is returned first. -/
theorem generate_shortest_first_threeCubes :
    (∃ s, Reachable (State.step threeCubes) (init threeCubes) s ∧
      s.queue = [[-2, 1], [2, 3, -1], [2, 3, 1]] ∧
      ∀ c ∈ [[2, 3, -1], [2, 3, 1]], ([-2, 1] : Cube).length ≤ c.length) ∧
    ∃ rest, generate threeCubes 32 = [[-2, 1], [2, 3, -1], [2, 3, 1]] ∧
      generate threeCubes 32 = (loop threeCubes 32 (init threeCubes)).cubes ++ rest ∧
      rest.Pairwise fun c d => c.length ≤ d.length := by
  have hqueue : (loop threeCubes 32 (init threeCubes)).queue = [[-2, 1], [2, 3, -1], [2, 3, 1]] := by
    decide +kernel
  obtain ⟨hfront, horder⟩ := generate_shortest_first threeCubes
  refine ⟨⟨_, loop_reachable 32 (init threeCubes), hqueue, ?_⟩, ?_⟩
  · exact hfront _ _ _ (loop_reachable 32 (init threeCubes)) hqueue
  · obtain ⟨rest, heq, -, hsorted⟩ := horder 32
    exact ⟨rest, by decide +kernel, heq, hsorted⟩

/-! ### The size of the result -/

/-- The cubes there are, and the branches and cubes that were pruned. -/
def State.nodes (s : State) : ℕ := s.queue.length + s.cubes.length + s.pruned

theorem branch_nodes (s : State) (l : ℤ) : (branch s l).nodes = s.nodes + 1 ∧
    s.queue.length ≤ (branch s l).queue.length ∧ (branch s l).queue.length ≤ s.queue.length + 1 ∧
    (branch s l).cubes = s.cubes := by
  unfold branch State.nodes
  split
  · rename_i P _
    have hlen : (BinaryHeap.push heavier s.queue P.trail).length = _ :=
      (BinaryHeap.push_perm s.queue P.trail).length_eq
    rw [List.length_cons] at hlen
    refine ⟨?_, ?_, hlen.le, rfl⟩
    · show (BinaryHeap.push heavier s.queue P.trail).length + s.cubes.length + s.pruned = _
      omega
    · show _ ≤ (BinaryHeap.push heavier s.queue P.trail).length
      omega
  · exact ⟨rfl, Nat.le_refl _, Nat.le_succ _, rfl⟩

/-- **A split makes one more** of what there is, and puts nothing aside. -/
theorem split_nodes (s : State) (v : ℕ) (hne : s.queue ≠ []) : (split s v).nodes = s.nodes + 1 ∧
    (split s v).queue.length ≤ s.queue.length + 1 ∧ (split s v).cubes = s.cubes := by
  obtain ⟨hpos, hlow, hhigh, hcubes⟩ := branch_nodes s v
  obtain ⟨hneg, hlow', hhigh', hcubes'⟩ := branch_nodes (between s v) (-v)
  have hlen := List.length_pos_of_ne_nil hne
  have hbetween : (between s v).nodes = (branch s v).nodes := rfl
  have hqueue : (between s v).queue.length = (branch s v).queue.length := rfl
  have hpop := @BinaryHeap.length_pop _ heavier (branch (between s v) (-v)).queue
  have hnodes : (split s v).nodes + 1 = (branch (between s v) (-v)).nodes := by
    show (BinaryHeap.pop heavier (branch (between s v) (-v)).queue).length +
      (branch (between s v) (-v)).cubes.length + (branch (between s v) (-v)).pruned + 1 = _
    unfold State.nodes
    omega
  refine ⟨by omega, ?_, hcubes'.trans hcubes⟩
  show (BinaryHeap.pop heavier (branch (between s v) (-v)).queue).length ≤ _
  omega

/-- **An expansion** makes at most one more, the queue grows by at most one cube, and a cube is put aside
only if there is nothing to split it on. -/
theorem createCubes_nodes (hq : s.queue = top :: rest) :
    (createCubes cfg s).nodes ≤ s.nodes + 1 ∧
      (createCubes cfg s).queue.length ≤ s.queue.length + 1 ∧
      ∀ c ∈ (createCubes cfg s).cubes, c ∈ s.cubes ∨ next cfg c = none := by
  have hpop := @BinaryHeap.length_pop _ heavier s.queue
  have hpos : 0 < s.queue.length := by
    rw [hq]
    exact Nat.succ_pos _
  rcases createCubes_cases cfg hq with ⟨-, heq⟩ | ⟨hnext, heq⟩ | ⟨v, -, -, -, heq⟩
  · rw [heq]
    refine ⟨?_, ?_, fun c hc => .inl hc⟩
    · show (BinaryHeap.pop heavier s.queue).length + s.cubes.length + (s.pruned + 1) ≤ _
      unfold State.nodes
      omega
    · show (BinaryHeap.pop heavier s.queue).length ≤ _
      omega
  · rw [heq]
    refine ⟨?_, ?_, fun c hc => ?_⟩
    · show (BinaryHeap.pop heavier s.queue).length + (s.cubes ++ [top]).length + s.pruned ≤ _
      rw [List.length_append, List.length_singleton]
      unfold State.nodes
      omega
    · show (BinaryHeap.pop heavier s.queue).length ≤ _
      omega
    · refine (List.mem_append.mp hc).imp id fun hc => ?_
      rw [List.mem_singleton.mp hc]
      exact hnext
  · rw [heq]
    obtain ⟨hnodes, hlen, hcubes⟩ :=
      split_nodes { s with propagator := refilled s top } v (hq ▸ List.cons_ne_nil top rest)
    exact ⟨hnodes.le, hlen, fun c hc => .inl (hcubes ▸ hc)⟩

theorem jwts_nonneg (F : List Clause) (v : ℕ) : 0 ≤ jwts F v := by
  refine List.foldlRecOn F _ (motive := fun q : ℚ => 0 ≤ q) (le_refl _) fun q hq c _ => ?_
  refine List.foldlRecOn c _ (motive := fun q : ℚ => 0 ≤ q) hq fun q hq l _ => ?_
  split
  · positivity
  · exact hq

/-- Where no variable is found, the cube has all of them. -/
theorem complete_of_next {lits : Cube} (hlevel : ∀ v, 0 ≤ cfg.getLevel v)
    (h : next cfg lits = none) : ∀ v, 1 ≤ v → v ≤ cfg.nbVar → v ∈ lits.map Int.natAbs := by
  have hscore : ∀ v, 0 ≤ jwts cfg.clauses v * cfg.getLevel v := fun v =>
    mul_nonneg (jwts_nonneg cfg.clauses v) (hlevel v)
  -- a score that has been kept is kept or replaced
  have hfold : ∀ (vs : List ℕ) (best : Option ℕ × ℚ), (best.1 = none → best.2 = -1) →
      (vs.foldl (consider cfg lits) best).1 = none →
        best.1 = none ∧ ∀ v ∈ vs, v ∈ lits.map Int.natAbs := by
    intro vs
    induction vs with
    | nil => exact fun best _ h => ⟨h, fun v hv => absurd hv List.not_mem_nil⟩
    | cons w vs ih =>
        intro best hbest h
        have hstep : (consider cfg lits best w).1 = none → (consider cfg lits best w).2 = -1 := by
          unfold consider
          split
          · exact hbest
          · split
            · exact fun hnone => nomatch hnone
            · exact hbest
        obtain ⟨hnone, hall⟩ := ih _ hstep h
        have hw : best.1 = none ∧ w ∈ lits.map Int.natAbs := by
          unfold consider at hnone
          split at hnone
          · rename_i hmem
            exact ⟨hnone, hmem⟩
          · split at hnone
            · exact nomatch hnone
            · rename_i hlow
              refine absurd ?_ hlow
              rw [hbest hnone]
              exact lt_of_lt_of_le (by decide) (hscore w)
        exact ⟨hw.1, List.forall_mem_cons.mpr ⟨hw.2, hall⟩⟩
  intro v hlow hhigh
  exact (hfold _ _ (fun _ => rfl) h).2 v (List.mem_range'_1.mpr ⟨hlow, by omega⟩)

/-- What a run of `k` expansions keeps. -/
structure State.Sized (cfg : Config) (k : ℕ) (s : State) : Prop where
  nodes : s.nodes ≤ k + 1
  queue : s.queue.length ≤ cfg.numCubes
  complete : ∀ c ∈ s.cubes, next cfg c = none

theorem loop_sized (budget : ℕ) {k : ℕ} (h : s.Sized cfg k) :
    (loop cfg budget s).Sized cfg (k + budget) := by
  induction budget generalizing k s with
  | zero => exact h
  | succ budget ih =>
      rw [loop]
      split
      · rename_i hgo
        obtain ⟨top, rest, hq⟩ := List.exists_cons_of_ne_nil hgo.2
        have hnext : (createCubes cfg s).Sized cfg (k + 1) := by
          obtain ⟨hnodes, hlen, hcubes⟩ := createCubes_nodes hq
          have hsized := h.nodes
          exact ⟨hnodes.trans (by omega), hlen.trans (by omega),
            fun c hc => (hcubes c hc).elim (h.complete c) id⟩
        have hloop := ih hnext
        rwa [Nat.add_right_comm, Nat.add_assoc] at hloop
      · exact ⟨h.nodes.trans (by omega), h.queue, h.complete⟩

/-- With enough budget the loop stops by itself. -/
theorem loop_stops (hF : InRange cfg.nbVar cfg.clauses) {budget : ℕ}
    (hbudget : 2 ^ (cfg.nbVar + 2) ≤ budget) :
    ¬((loop cfg budget (init cfg)).queue.length < cfg.numCubes ∧
      (loop cfg budget (init cfg)).queue ≠ []) := by
  intro hgo
  rcases loop_cases cfg budget (init cfg) with hexec | hstop
  · have hlt := expansions_lt hF hexec
    rw [List.length_replicate] at hlt
    omega
  · rw [State.step, if_pos hgo] at hstop
    exact Option.some_ne_none _ hstop

/-- **How many cubes there are.**  At most as many as asked for besides those that were put aside, and
these have all variables.  With enough budget it is exactly as many, or the queue has run empty.  Each
expansion adds at most one to the cubes and the pruned branches together. -/
theorem generate_size (hF : InRange cfg.nbVar cfg.clauses) (hnum : 1 ≤ cfg.numCubes)
    (hlevel : ∀ v, 0 ≤ cfg.getLevel v) (budget : ℕ) :
    (generate cfg budget).length + (loop cfg budget (init cfg)).pruned ≤ budget + 1 ∧
      (generate cfg budget).length ≤ cfg.numCubes + (loop cfg budget (init cfg)).cubes.length ∧
      (∀ c ∈ (loop cfg budget (init cfg)).cubes,
        ∀ v, 1 ≤ v → v ≤ cfg.nbVar → v ∈ c.map Int.natAbs) ∧
      (2 ^ (cfg.nbVar + 2) ≤ budget →
        (generate cfg budget).length = cfg.numCubes + (loop cfg budget (init cfg)).cubes.length ∨
        generate cfg budget = (loop cfg budget (init cfg)).cubes) := by
  have hinit : (init cfg).Sized cfg 0 := by
    have hperm (c : Cube) : (BinaryHeap.push heavier [] c).Perm [c] := BinaryHeap.push_perm [] c
    have hone : (init cfg).queue.length = 1 := (hperm _).length_eq
    refine ⟨hone.le, hone.le.trans hnum, fun c hc => absurd hc List.not_mem_nil⟩
  have hsized := loop_sized budget hinit
  have hnodes := hsized.nodes
  have hqueue := hsized.queue
  have hgen : generate cfg budget = (loop cfg budget (init cfg)).cubes ++
      BinaryHeap.drain heavier (loop cfg budget (init cfg)).queue.length
        (loop cfg budget (init cfg)).queue := drain_eq _ _ _
  have hlen : (generate cfg budget).length =
      (loop cfg budget (init cfg)).cubes.length + (loop cfg budget (init cfg)).queue.length := by
    rw [hgen, List.length_append, (BinaryHeap.drain_perm _ _ (Nat.le_refl _)).length_eq]
  unfold State.nodes at hnodes
  refine ⟨by omega, by omega, fun c hc => complete_of_next hlevel (hsized.complete c hc),
    fun hbudget => ?_⟩
  have hstop := loop_stops hF hbudget
  by_cases hempty : (loop cfg budget (init cfg)).queue = []
  · refine .inr ?_
    rw [hgen, hempty]
    exact List.append_nil _
  · refine .inl ?_
    have hnot := not_and_or.mp hstop
    have hfull := hnot.resolve_right (not_not.mpr hempty)
    omega

/-- Two cubes of two clauses. -/
def twoCubes : Config := { twoClauses with numCubes := 2 }

theorem generate_size_twoCubes : (generate twoCubes 32).length = 2 ∧
    (∀ v, 0 ≤ twoCubes.getLevel v) ∧
    ((generate twoCubes 32).length = 2 + (loop twoCubes 32 (init twoCubes)).cubes.length ∨
      generate twoCubes 32 = (loop twoCubes 32 (init twoCubes)).cubes) := by
  have hF : InRange twoCubes.nbVar twoCubes.clauses := by
    unfold InRange
    decide
  have hlevel : ∀ v, 0 ≤ twoCubes.getLevel v := fun _ => zero_le_one
  exact ⟨by decide +kernel, hlevel, (generate_size hF (by decide) hlevel 32).2.2.2 (by decide)⟩

end HydraSAT.CubeGenCli
