import Mathlib.Data.Rat.Defs
import HydraSAT.CubeGenCli.Propagator
import HydraSAT.Lib.BinaryHeap
import HydraSAT.Lib.Transition

/-!
# The expansion loop of cube_gen

`CubeGenerator::generate` expands the shortest cube of a priority queue until the queue holds
enough cubes or the wall-clock budget is spent, and returns the cubes of the queue.  Scores are
exact rationals here, and the copies that `createCubes` takes of the trail read the trail as it is
at the time.
-/

namespace HydraSAT.CubeGenCli

open HydraSAT.Lib

/-! ### Branching -/

/-- `m_jwts[v]`: every occurrence of `v` in a clause of length `k` counts `2^-k`. -/
def jwts (F : List Clause) (v : ℕ) : ℚ :=
  F.foldl (fun score c => c.foldl
    (fun score l => if l.natAbs = v then score + 1 / 2 ^ c.length else score) score) 0

/-- What a run of the generator is given. -/
structure Config where
  nbVar : ℕ
  clauses : List Clause
  /-- `PartialOrderHeuristic::getLevel`. -/
  getLevel : ℕ → ℚ
  numCubes : ℕ

/-- `PartialOrderHeuristicNone`. -/
def levelNone : ℕ → ℚ := fun _ => 1

variable (cfg : Config)

/-- An iteration of the loop of `next`, with `best` and `bestScore`. -/
def consider (lits : Cube) (best : Option ℕ × ℚ) (v : ℕ) : Option ℕ × ℚ :=
  if v ∈ lits.map Int.natAbs then best
  else if best.2 < jwts cfg.clauses v * cfg.getLevel v then
    (some v, jwts cfg.clauses v * cfg.getLevel v)
  else best

/-- `JWTSBranchingCubeHeuristic::next`: the first of the best variables outside the cube, `none` for
`var_Undef`. -/
def next (lits : Cube) : Option ℕ :=
  ((List.range' 1 cfg.nbVar).foldl (consider cfg lits) (none, -1)).1

/-! ### Expanding a cube -/

/-- The propagator, the vector of the priority queue, the cubes done, and the counter. -/
structure State where
  propagator : Propagator
  queue : List Cube
  cubes : List Cube
  pruned : ℕ

/-- The comparison of the priority queue: the weight of a cube is its number of literals. -/
def heavier (c₁ c₂ : Cube) : Bool := c₂.length < c₁.length

/-- Fill the propagator with the literals of a cube. -/
def fill (P : Propagator) (lits : Cube) : Propagator :=
  lits.foldl (fun P l => if 1 < P.value l then P.uncheckedEnqueue l else P) P

/-- One branch: enqueue the decision and propagate; push the trail, or count a pruned branch. -/
def branch (s : State) (l : ℤ) : State :=
  match (s.propagator.uncheckedEnqueue l).propagate with
  | (true, P) => { s with propagator := P, queue := BinaryHeap.push heavier s.queue P.trail }
  | (false, P) => { s with propagator := P, pruned := s.pruned + 1 }

/-- Both branches on `v`, then the pop of the expanded cube. -/
def split (s : State) (v : ℕ) : State :=
  let pos := branch s v
  let neg := branch
    { pos with propagator := pos.propagator.cancelUntilPos s.propagator.trail.length } (-v)
  { neg with queue := BinaryHeap.pop heavier neg.queue }

def createCubes (s : State) : State :=
  match s.queue with
  | [] => s
  | cBest :: _ =>
      match (fill s.propagator.restart cBest).propagate with
      | (ok, P) =>
          if ok = false ∨ P.unsat = true then
            { s with
              propagator := P
              queue := BinaryHeap.pop heavier s.queue
              pruned := s.pruned + 1 }
          else
            match next cfg cBest with
            | none =>
                { s with
                  propagator := P
                  queue := BinaryHeap.pop heavier s.queue
                  cubes := s.cubes ++ [cBest] }
            | some v => split { s with propagator := P } v

/-! ### The loop -/

/-- `initPropagator` and `initQueue`. -/
def init : State :=
  { propagator := (Propagator.new cfg.nbVar cfg.clauses).propagate.2
    queue := BinaryHeap.push heavier []
      (Propagator.new cfg.nbVar cfg.clauses).propagate.2.trail
    cubes := []
    pruned := 0 }

/-- The loop of `generate`, stopped by the clock after at most `budget` iterations. -/
def loop : ℕ → State → State
  | 0, s => s
  | budget + 1, s =>
      if s.queue.length < cfg.numCubes ∧ s.queue ≠ [] then loop budget (createCubes cfg s) else s

/-- The final loop pops the queue into the result; the first argument bounds its iterations. -/
def drain : ℕ → List Cube → List Cube → List Cube
  | 0, _, cubes => cubes
  | _ + 1, [], cubes => cubes
  | fuel + 1, top :: rest, cubes =>
      drain fuel (BinaryHeap.pop heavier (top :: rest)) (cubes ++ [top])

/-- The cubes that `generate` returns. -/
def generate (budget : ℕ) : List Cube :=
  drain (loop cfg budget (init cfg)).queue.length (loop cfg budget (init cfg)).queue
    (loop cfg budget (init cfg)).cubes

/-! ### The loop as a run -/

/-- The refilled propagator, after propagation. -/
def refilled (s : State) (c : Cube) : Propagator := (fill s.propagator.restart c).propagate.2

/-- The propagator of a cube with the decision `v`, before propagation. -/
def posStart (P : Propagator) (v : ℕ) : Propagator := P.uncheckedEnqueue v

/-- The propagator of a cube with the decision `-v`, after the other branch and before propagation. -/
def negStart (P : Propagator) (v : ℕ) : Propagator :=
  ((posStart P v).propagate.2.cancelUntilPos P.trail.length).uncheckedEnqueue (-v)

/-- An iteration of the loop of `generate`. -/
def State.step (s : State) (_ : Unit) : Option State :=
  if s.queue.length < cfg.numCubes ∧ s.queue ≠ [] then some (createCubes cfg s) else none

variable {cfg} {s s' : State} {top : Cube} {rest : List Cube}

theorem State.step_cases (hs : s.step cfg () = some s') :
    (∃ top rest, s.queue = top :: rest) ∧ s.queue.length < cfg.numCubes ∧ s' = createCubes cfg s := by
  obtain ⟨⟨hlt, hne⟩, hs⟩ := (Option.ite_none_right_eq_some).mp hs
  exact ⟨List.exists_cons_of_ne_nil hne, hlt, (Option.some.inj hs).symm⟩

/-- The loop stopped by the clock is a run. -/
theorem loop_reachable (budget : ℕ) (s : State) : Reachable (State.step cfg) s (loop cfg budget s) := by
  induction budget generalizing s with
  | zero => exact .start
  | succ budget ih =>
      rw [loop]
      split
      · rename_i hgo
        exact Reaches.trans (.next .start (a := ()) trivial (if_pos hgo)) (ih (createCubes cfg s))
      · exact .start

/-- The three ways out of an expansion, whatever is done on them. -/
theorem expansion_cases {β : Type*} (ok unsat : Bool) (branching : Option ℕ) (pruned whole : β)
    (split : ℕ → β) {result : β}
    (h : result = if ok = false ∨ unsat = true then pruned
      else match branching with | none => whole | some v => split v) :
    ((ok = false ∨ unsat = true) ∧ result = pruned) ∨ (branching = none ∧ result = whole) ∨
      ∃ v, branching = some v ∧ ok = true ∧ unsat = false ∧ result = split v := by
  subst h
  split
  · rename_i hconflict
    exact .inl ⟨hconflict, rfl⟩
  · rename_i hok
    obtain ⟨hok, hunsat⟩ := not_or.mp hok
    cases branching with
    | none => exact .inr (.inl ⟨rfl, rfl⟩)
    | some v => exact .inr (.inr ⟨v, rfl, by simpa using hok, by simpa using hunsat, rfl⟩)

/-- **What `createCubes` does**: prune the cube, put it aside, or split it. -/
theorem createCubes_cases (cfg : Config) (hq : s.queue = top :: rest) :
    (((fill s.propagator.restart top).propagate.1 = false ∨ (refilled s top).unsat = true) ∧
      createCubes cfg s =
        { s with
          propagator := refilled s top
          queue := BinaryHeap.pop heavier s.queue
          pruned := s.pruned + 1 }) ∨
    (next cfg top = none ∧ createCubes cfg s =
      { s with
        propagator := refilled s top
        queue := BinaryHeap.pop heavier s.queue
        cubes := s.cubes ++ [top] }) ∨
    ∃ v, next cfg top = some v ∧ (fill s.propagator.restart top).propagate.1 = true ∧
      (refilled s top).unsat = false ∧
      createCubes cfg s = split { s with propagator := refilled s top } v := by
  refine expansion_cases _ _ (next cfg top) _ _ (fun v => split _ v) ?_
  simp only [createCubes, hq]
  rfl

theorem branch_propagator (s : State) (l : ℤ) :
    (branch s l).propagator = (s.propagator.uncheckedEnqueue l).propagate.2 := by
  unfold branch
  split
  · rename_i hP
    rw [hP]
  · rename_i hP
    rw [hP]

end HydraSAT.CubeGenCli
