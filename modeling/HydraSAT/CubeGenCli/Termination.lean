import Mathlib.Data.Finset.Card
import HydraSAT.CubeGenCli.Partition
import HydraSAT.Lib.Frontier

/-!
# Termination of the expansion loop

`createCubes` pops after it has pushed, so that what it removes is the front of a heap with up to two
new cubes.  A cube repeats at most one variable, the refill keeps one literal of each, and every
branch adds a literal; a child is therefore no lighter than the cube it comes from, and the cube
is still in front.  Weights count literals and prove nothing about progress; the mentioned do.

* `createCubes_children`: an expansion replaces the front by at most two cubes, each with all
  variables of the front and one more;
* `loop_terminates`: fewer than `2 ^ (nbVar + 2)` expansions, whatever the clock allows.
-/

namespace HydraSAT.CubeGenCli

open HydraSAT.Lib

variable {F : List Clause} {n : ℕ} {s s' : State} {top : Cube} {rest : List Cube} {cfg : Config}

/-- The variables that a cube mentions. -/
def mentioned (c : Cube) : Finset ℕ := (c.map Int.natAbs).toFinset

theorem mem_mentioned {c : Cube} {v : ℕ} : v ∈ mentioned c ↔ v ∈ c.map Int.natAbs :=
  List.mem_toFinset

theorem mentioned_subset {c d : Cube} (h : c ⊆ d) : mentioned c ⊆ mentioned d := fun _ hv =>
  mem_mentioned.mpr (List.map_subset _ h (mem_mentioned.mp hv))

/-- The refill loses no variable. -/
theorem mentioned_firstLits (c : Cube) : mentioned c ⊆ mentioned (firstLits c) := by
  intro v hv
  obtain ⟨l, hl, rfl⟩ := List.mem_map.mp (mem_mentioned.mp hv)
  exact mem_mentioned.mpr ((keep_covers [] c l hl).resolve_left List.not_mem_nil)

/-! ### The children of a cube -/

/-- A branch queues at most one cube, and that extends the trail and the decision. -/
theorem branch_children (hF : InRange n F) {l : ℤ} (hok : s.propagator.Ok F n) (hl : l.natAbs ≤ n) :
    ∃ children : List Cube, children.length ≤ 1 ∧ (branch s l).queue.Perm (s.queue ++ children) ∧
      ∀ c ∈ children, s.propagator.trail ++ [l] <+: c := by
  obtain ⟨more, hext⟩ := (Propagator.propagate_extends hF (hok.enqueue hl)).1.adds
  have htrail : (s.propagator.uncheckedEnqueue l).propagate.2.trail =
      (s.propagator.trail ++ [l]) ++ more := hext.trail
  unfold branch
  split
  · rename_i P hP
    rw [hP] at htrail
    refine ⟨[P.trail], Nat.le_refl 1, ?_, fun c hc => ?_⟩
    · exact (BinaryHeap.push_perm s.queue P.trail).trans (List.perm_append_singleton _ _).symm
    · rw [List.mem_singleton.mp hc, htrail]
      exact List.prefix_append _ _
  · refine ⟨[], Nat.zero_le 1, ?_, fun c hc => absurd hc List.not_mem_nil⟩
    rw [List.append_nil]

/-- **A split replaces the front of the queue** by the cubes of its two branches. -/
theorem split_children (hF : InRange n F) (hfilled : Filled F n s.propagator)
    (hq : s.queue = top :: rest) (hlen : top.length ≤ s.propagator.trail.length + 1) {v : ℕ}
    (hvn : v ≤ n) :
    ∃ children : List Cube, children.length ≤ 2 ∧ (split s v).queue.Perm (rest ++ children) ∧
      ∀ c ∈ children, ∃ l : ℤ, l.natAbs = v ∧ s.propagator.trail ++ [l] <+: c := by
  obtain ⟨hpos, hback, hneg, rest', hq'⟩ := split_branches hF hfilled hq hlen hvn
  obtain ⟨plus, hplus, hperm, hmore⟩ := branch_children hF (l := (v : ℤ)) hfilled.ok (by omega)
  obtain ⟨minus, hminus, hperm', hmore'⟩ :=
    branch_children hF (s := between s v) (l := -(v : ℤ)) (hpos.ok.cancel _) (by omega)
  have hbetween : (between s v).queue = (branch s v).queue := rfl
  refine ⟨plus ++ minus, by rw [List.length_append]; omega, ?_, fun c hc => ?_⟩
  · have hfront : (top :: rest').Perm (top :: (rest ++ (plus ++ minus))) := by
      rw [← hq', ← List.cons_append, ← hq, ← List.append_assoc]
      exact hperm'.trans (hbetween ▸ hperm.append_right minus)
    show (BinaryHeap.pop heavier (branch (between s v) (-v)).queue).Perm _
    rw [hq']
    exact (BinaryHeap.pop_perm top rest').trans hfront.cons_inv
  · rcases List.mem_append.mp hc with hc | hc
    · exact ⟨v, Int.natAbs_natCast v, hmore c hc⟩
    · exact ⟨-v, by rw [Int.natAbs_neg, Int.natAbs_natCast], hback ▸ hmore' c hc⟩

/-- **One expansion** removes the front of the queue, and adds at most two cubes with more
variables. -/
theorem createCubes_children (hF : InRange cfg.nbVar cfg.clauses)
    (h : s.Inv cfg.clauses cfg.nbVar) (hq : s.queue = top :: rest) :
    ∃ children : List Cube, children.length ≤ 2 ∧
      (createCubes cfg s).queue.Perm (rest ++ children) ∧
      ∀ c ∈ children, mentioned top ⊂ mentioned c := by
  have hpop : (BinaryHeap.pop heavier s.queue).Perm (rest ++ []) := by
    rw [hq, List.append_nil]
    exact BinaryHeap.pop_perm top rest
  have htop := h.queued top (by rw [hq]; exact List.mem_cons_self)
  rcases createCubes_cases cfg hq with ⟨-, heq⟩ | ⟨-, heq⟩ | ⟨v, hnext, -, -, heq⟩
  · exact ⟨[], Nat.zero_le 2, heq ▸ hpop, fun c hc => absurd hc List.not_mem_nil⟩
  · exact ⟨[], Nat.zero_le 2, heq ▸ hpop, fun c hc => absurd hc List.not_mem_nil⟩
  · obtain ⟨-, hvn, hout⟩ := next_spec hnext
    obtain ⟨hfilled, -, hkept⟩ := refill_spec hF h.ok htop.inRange
    obtain ⟨children, hlen, hperm, hmore⟩ :=
      split_children (s := { s with propagator := refilled s top }) hF hfilled hq
        (htop.distinct.trans (Nat.add_le_add_right hkept.length_le 1)) hvn
    refine ⟨children, hlen, heq ▸ hperm, fun c hc => Finset.ssubset_iff_exists_cons_subset.mpr ?_⟩
    obtain ⟨l, rfl, hstart⟩ := hmore c hc
    refine ⟨l.natAbs, fun hmem => hout (mem_mentioned.mp hmem), ?_⟩
    have hsub : firstLits top ⊆ c :=
      List.Subset.trans hkept.subset
        (List.Subset.trans (List.subset_append_left _ _) hstart.subset)
    have hold : mentioned top ⊆ mentioned c :=
      (mentioned_firstLits top).trans (mentioned_subset hsub)
    have hnew : l.natAbs ∈ mentioned c :=
      mem_mentioned.mpr (List.mem_map_of_mem
        (hstart.subset (List.mem_append_right _ List.mem_cons_self)))
    rw [Finset.cons_eq_insert]
    exact Finset.insert_subset hnew hold

/-! ### The potential of the queue -/

/-- How many variables a cube can still get. -/
def unmentioned (n : ℕ) (c : Cube) : ℕ := n + 1 - (mentioned c).card

theorem Queued.card_le {c : Cube} (hc : Queued n c) : (mentioned c).card ≤ n + 1 := by
  have hsub : mentioned c ⊆ Finset.range (n + 1) := by
    intro v hv
    obtain ⟨l, hl, rfl⟩ := List.mem_map.mp (mem_mentioned.mp hv)
    exact Finset.mem_range.mpr (Nat.lt_succ_of_le (hc.inRange l hl))
  simpa only [Finset.card_range] using Finset.card_le_card hsub

theorem createCubes_inv (hF : InRange cfg.nbVar cfg.clauses) (h : s.Inv cfg.clauses cfg.nbVar) :
    (createCubes cfg s).Inv cfg.clauses cfg.nbVar := (createCubes_hits hF h).1

theorem inv_of_reachable (hF : InRange cfg.nbVar cfg.clauses)
    (hr : Reachable (State.step cfg) (init cfg) s) : s.Inv cfg.clauses cfg.nbVar := by
  refine hr.invariant (State.Inv cfg.clauses cfg.nbVar) (init_inv cfg hF).1 fun s _ s' h _ hs => ?_
  obtain ⟨-, -, rfl⟩ := State.step_cases hs
  exact createCubes_inv hF h

/-- An iteration of the loop lowers the potential of its queue. -/
theorem step_potential (hF : InRange cfg.nbVar cfg.clauses) (h : s.Inv cfg.clauses cfg.nbVar)
    (hs : s.step cfg () = some s') :
    Frontier.potential (unmentioned cfg.nbVar) s'.queue <
      Frontier.potential (unmentioned cfg.nbVar) s.queue := by
  obtain ⟨⟨top, rest, hq⟩, -, rfl⟩ := State.step_cases hs
  obtain ⟨children, hlen, hperm, hmore⟩ := createCubes_children hF h hq
  refine Frontier.potential_lt (.of_eq hq) hperm hlen fun c hc => ?_
  have hlt := Finset.card_lt_card (hmore c hc)
  have hle := ((createCubes_inv hF h).queued c
    (hperm.symm.subset (List.mem_append_right _ hc))).card_le
  unfold unmentioned
  omega

theorem init_potential (cfg : Config) :
    Frontier.potential (unmentioned cfg.nbVar) (init cfg).queue < 2 ^ (cfg.nbVar + 2) := by
  have hroot : mentioned [] = ∅ := rfl
  have hqueue : (init cfg).queue = [[]] := by
    rw [init, propagate_new]
    rfl
  have hpos : 0 < 2 ^ (cfg.nbVar + 2) := Nat.two_pow_pos _
  rw [hqueue, Frontier.potential, List.map_singleton, List.sum_singleton, unmentioned, hroot,
    Finset.card_empty, Nat.sub_zero]
  exact Nat.sub_one_lt hpos.ne'

/-! ### The loop -/

theorem expansions_lt (hF : InRange cfg.nbVar cfg.clauses) {as : List Unit}
    (h : exec (State.step cfg) (init cfg) as = some s) : as.length < 2 ^ (cfg.nbVar + 2) := by
  have hbound := exec_length_le (fun s => Frontier.potential (unmentioned cfg.nbVar) s.queue)
    (State.Inv cfg.clauses cfg.nbVar)
    (fun s _ s' h hs => by
      obtain ⟨-, -, heq⟩ := State.step_cases hs
      exact ⟨heq ▸ createCubes_inv hF h, step_potential hF h hs⟩)
    as (init_inv cfg hF).1 h
  exact (Nat.le_of_add_right_le hbound).trans_lt (init_potential cfg)

/-- The loop has used up its budget, or it has stopped by itself. -/
theorem loop_cases (cfg : Config) (budget : ℕ) (s : State) :
    exec (State.step cfg) s (List.replicate budget ()) = some (loop cfg budget s) ∨
      (loop cfg budget s).step cfg () = none := by
  induction budget generalizing s with
  | zero => exact .inl rfl
  | succ budget ih =>
      rw [loop]
      split
      · rename_i hgo
        refine (ih (createCubes cfg s)).imp_left fun hexec => ?_
        rw [List.replicate_succ, exec, State.step, if_pos hgo]
        exact hexec
      · rename_i hstop
        exact .inr (if_neg hstop)

/-- **The expansion loop terminates without the clock.**  Every expansion removes the cube it expands
and adds at most two cubes that mention strictly more variables; there are fewer than
`2 ^ (nbVar + 2)` expansions, and a loop with that budget stops by itself. -/
theorem loop_terminates (hF : InRange cfg.nbVar cfg.clauses) :
    (∀ s top rest, Reachable (State.step cfg) (init cfg) s → s.queue = top :: rest →
      ∃ children : List Cube, children.length ≤ 2 ∧
        (createCubes cfg s).queue.Perm (rest ++ children) ∧
        ∀ c ∈ children, mentioned top ⊂ mentioned c) ∧
    (∀ as s, exec (State.step cfg) (init cfg) as = some s → as.length < 2 ^ (cfg.nbVar + 2)) ∧
    ∀ budget, 2 ^ (cfg.nbVar + 2) ≤ budget →
      ¬((loop cfg budget (init cfg)).queue.length < cfg.numCubes ∧
        (loop cfg budget (init cfg)).queue ≠ []) := by
  refine ⟨fun s top rest hr hq => createCubes_children hF (inv_of_reachable hF hr) hq,
    fun as s h => expansions_lt hF h, fun budget hbudget hgo => ?_⟩
  rcases loop_cases cfg budget (init cfg) with hexec | hstop
  · have hlt := expansions_lt hF hexec
    rw [List.length_replicate] at hlt
    omega
  · rw [State.step, if_pos hgo] at hstop
    exact Option.some_ne_none _ hstop

/-- Two clauses, and more cubes asked for than there are. -/
def twoClauses : Config :=
  { nbVar := 3
    clauses := [[1, 2], [-2, 3]]
    getLevel := levelNone
    numCubes := 100 }

theorem loop_terminates_twoClauses : InRange twoClauses.nbVar twoClauses.clauses ∧
    ∀ budget, 32 ≤ budget →
      ¬((loop twoClauses budget (init twoClauses)).queue.length < 100 ∧
        (loop twoClauses budget (init twoClauses)).queue ≠ []) := by
  have hF : InRange twoClauses.nbVar twoClauses.clauses := by
    unfold InRange
    decide
  exact ⟨hF, (loop_terminates hF).2.2⟩

end HydraSAT.CubeGenCli
