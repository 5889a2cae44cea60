import Mathlib.Tactic.Ring
import HydraSAT.CubeGenerator.Expansion
import HydraSAT.Lib.BinaryHeap
import HydraSAT.Lib.Pool
import HydraSAT.Lib.Transition

/-!
# The thread-pool cube generator

`CubeGeneratorCLI::generate` keeps a priority queue of cubes.  Its main loop expands the shortest
one into two children and hands these to a pool of threads; a thread asks a SAT solver whether a
cube is satisfiable and appends the answer to a list of results, which the main loop collects.

* `workerLoop`: the atomic steps of a pool thread.  Taking a job, appending a result and
  decrementing `m_inFlight` are separate steps;
* `Main.step`: the atomic steps of the main loop, `System.step` those of the whole program.  The
  labels resolve the clock and the answers of the solvers;
* `System.inFlight_eq`: `m_inFlight` counts the cubes from before their submission until after their
  results are appended.
-/

namespace HydraSAT.CubeGenerator

open HydraSAT.Lib

variable {π : Type}

/-! ### Pool threads -/

/-- What the threads share. -/
structure Pool where
  jobQueue : List Cube
  /-- `WorkerResult`: the literals and the solver's answer. -/
  results : List (Cube × Bool)
  inFlight : ℤ

/-- Control points of `workerLoop`. -/
inductive Worker
  | waiting
  | solving (cube : Cube)
  /-- The result is appended, `m_inFlight` not yet decremented. -/
  | appended

/-- One atomic step of a pool thread; `sat` is the solver's answer. -/
def workerLoop (q : Pool) : Worker → Bool → Option (Pool × Worker)
  | .waiting, _ =>
      match q.jobQueue with
      | [] => none
      | cube :: rest => some ({ q with jobQueue := rest }, .solving cube)
  | .solving cube, sat => some ({ q with results := q.results ++ [(cube, sat)] }, .appended)
  | .appended, _ => some ({ q with inFlight := q.inFlight - 1 }, .waiting)

/-! ### The main loop -/

/-- Control points of `generate`; `timeUp` is the local of the current iteration. -/
inductive Main
  | loop
  /-- `submitSATCheck` on the next pending cube, before `++m_inFlight`. -/
  | submit (timeUp : Bool) (pending : List Cube)
  /-- After `++m_inFlight`, before the push on the job queue. -/
  | push (timeUp : Bool) (cube : Cube) (pending : List Cube)
  /-- Before `mustBlock` is evaluated. -/
  | mustBlock (timeUp : Bool)
  | collect (timeUp block : Bool)
  | testEmpty (timeUp : Bool)
  | testLimit (timeUp : Bool)
  | testTime (timeUp : Bool)
  | drain (unsat : Bool)
  | returned (ok : Bool)
  /-- An assertion of `createCubes` failed. -/
  | aborted

/-- The whole program: the main thread's locals, what the threads share, and the pool. -/
structure System (π : Type) where
  propagator : π
  /-- The vector of the priority queue. -/
  queue : List Cube
  cubes : List Cube
  main : Main
  pool : Pool
  workers : List Worker

/-- The comparison of the priority queue: the weight of a cube is its number of literals. -/
def heavier (c₁ c₂ : Cube) : Bool := c₂.length < c₁.length

/-- The parameters of a run. -/
structure Config (π : Type) where
  propagator : Propagator π
  /-- `m_branchingHeuristic->next`; `none` is `var_Undef`. -/
  next : Cube → Option ℕ
  limitNbCubes : ℕ

/-- `collectResults`: satisfiable cubes go back to the queue, the others are dropped. -/
def collectResults (queue : List Cube) (results : List (Cube × Bool)) : List Cube :=
  results.foldl (fun queue r => if r.2 then BinaryHeap.push heavier queue r.1 else queue) queue

variable (cfg : Config π)

/-- The first test of the loop body and the expansion it guards. -/
def expand (s : System π) (timeUp : Bool) : System π :=
  match s.queue with
  | [] => { s with main := .mustBlock timeUp }
  | cBest :: _ =>
      if timeUp = false ∧ s.queue.length < cfg.limitNbCubes ∧ s.pool.inFlight = 0 then
        match createCubes cfg.propagator cfg.next s.propagator cBest with
        | none => { s with main := .aborted }
        | some e =>
            { s with
              propagator := e.propagator
              queue := BinaryHeap.pop heavier s.queue
              cubes := s.cubes ++ e.done
              main := .submit timeUp e.pending }
      else { s with main := .mustBlock timeUp }

/-- One atomic step of the main thread.  `now` is the clock's answer, read at the head of the
loop. -/
def Main.step (s : System π) (now : Bool) : Option (System π) :=
  match s.main with
  | .loop => some (expand cfg s now)
  | .submit timeUp [] => some { s with main := .mustBlock timeUp }
  | .submit timeUp (cube :: pending) =>
      some { s with
        pool := { s.pool with inFlight := s.pool.inFlight + 1 }
        main := .push timeUp cube pending }
  | .push timeUp cube pending =>
      some { s with
        pool := { s.pool with jobQueue := s.pool.jobQueue ++ [cube] }
        main := .submit timeUp pending }
  | .mustBlock timeUp =>
      some { s with main := .collect timeUp (s.queue.isEmpty && decide (0 < s.pool.inFlight)) }
  | .collect timeUp block =>
      -- the predicate of `m_resultCV.wait`
      if block = true ∧ s.pool.results = [] then none
      else some { s with
        queue := collectResults s.queue s.pool.results
        pool := { s.pool with results := [] }
        main := .testEmpty timeUp }
  | .testEmpty timeUp =>
      some { s with main :=
        if s.queue = [] ∧ s.pool.inFlight = 0 then .drain s.cubes.isEmpty else .testLimit timeUp }
  | .testLimit timeUp =>
      some { s with main :=
        if cfg.limitNbCubes ≤ s.queue.length ∧ s.pool.inFlight = 0 then .drain false
        else .testTime timeUp }
  | .testTime timeUp =>
      some { s with main := if timeUp = true ∧ s.pool.inFlight = 0 then .drain false else .loop }
  | .drain unsat =>
      match s.queue with
      | [] => some { s with main := .returned !unsat }
      | top :: _ => some { s with
          cubes := s.cubes ++ [top]
          queue := BinaryHeap.pop heavier s.queue }
  | .returned _ => none
  | .aborted => none

/-- Who moves. -/
inductive Action
  | main (now : Bool)
  | worker (i : ℕ) (sat : Bool)

/-- One atomic step of the program. -/
def System.step (s : System π) : Action → Option (System π)
  | .main now => Main.step cfg s now
  | .worker i sat => (stepThread workerLoop s.pool s.workers i sat).map fun r =>
      { s with pool := r.1, workers := r.2 }

/-- The state at the head of the first iteration: `initQueue` has propagated the units of the
fresh propagator `p` and queued its trail, and `nbThreads` threads wait. -/
def System.init (p : π) (nbThreads : ℕ) : System π :=
  { propagator := (cfg.propagator.propagate p).2
    queue := BinaryHeap.push heavier [] (cfg.propagator.getTrail (cfg.propagator.propagate p).2)
    cubes := []
    main := .loop
    pool := { jobQueue := [], results := [], inFlight := 0 }
    workers := List.replicate nbThreads .waiting }

/-! ### What a step can do -/

/-- The moves of a pool thread. -/
inductive WorkerMove (q : Pool) : Worker → Bool → Pool → Worker → Prop
  | take (cube rest sat) : q.jobQueue = cube :: rest →
      WorkerMove q .waiting sat { q with jobQueue := rest } (.solving cube)
  | append (cube sat) :
      WorkerMove q (.solving cube) sat { q with results := q.results ++ [(cube, sat)] } .appended
  | decrement (sat) : WorkerMove q .appended sat { q with inFlight := q.inFlight - 1 } .waiting

theorem workerLoop_cases {q q' : Pool} {w w' : Worker} {sat : Bool}
    (h : workerLoop q w sat = some (q', w')) : WorkerMove q w sat q' w' := by
  cases w with
  | waiting =>
      simp only [workerLoop] at h
      split at h
      · simp at h
      · rename_i cube rest hjobs
        obtain ⟨rfl, rfl⟩ := Prod.mk.inj (Option.some.inj h)
        exact .take cube rest sat hjobs
  | solving cube =>
      obtain ⟨rfl, rfl⟩ := Prod.mk.inj (Option.some.inj h)
      exact .append cube sat
  | appended =>
      obtain ⟨rfl, rfl⟩ := Prod.mk.inj (Option.some.inj h)
      exact .decrement sat

/-- The moves of the main thread. -/
inductive MainMove (s : System π) : Main → System π → Prop
  | idle (timeUp) : MainMove s .loop { s with main := .mustBlock timeUp }
  | expand (timeUp cBest rest e) : s.queue = cBest :: rest → s.pool.inFlight = 0 →
      createCubes cfg.propagator cfg.next s.propagator cBest = some e →
      MainMove s .loop
        { s with
          propagator := e.propagator
          queue := BinaryHeap.pop heavier s.queue
          cubes := s.cubes ++ e.done
          main := .submit timeUp e.pending }
  | abort : MainMove s .loop { s with main := .aborted }
  | submitted (timeUp) : MainMove s (.submit timeUp []) { s with main := .mustBlock timeUp }
  | submit (timeUp cube pending) : MainMove s (.submit timeUp (cube :: pending))
      { s with
        pool := { s.pool with inFlight := s.pool.inFlight + 1 }
        main := .push timeUp cube pending }
  | push (timeUp cube pending) : MainMove s (.push timeUp cube pending)
      { s with
        pool := { s.pool with jobQueue := s.pool.jobQueue ++ [cube] }
        main := .submit timeUp pending }
  | evaluate (timeUp) : MainMove s (.mustBlock timeUp)
      { s with main := .collect timeUp (s.queue.isEmpty && decide (0 < s.pool.inFlight)) }
  | collect (timeUp block) : (block = true → s.pool.results ≠ []) →
      MainMove s (.collect timeUp block)
        { s with
          queue := collectResults s.queue s.pool.results
          pool := { s.pool with results := [] }
          main := .testEmpty timeUp }
  | exitEmpty (timeUp) : s.queue = [] → s.pool.inFlight = 0 →
      MainMove s (.testEmpty timeUp) { s with main := .drain s.cubes.isEmpty }
  | exitLimit (timeUp) : cfg.limitNbCubes ≤ s.queue.length → s.pool.inFlight = 0 →
      MainMove s (.testLimit timeUp) { s with main := .drain false }
  | exitTime : s.pool.inFlight = 0 → MainMove s (.testTime true) { s with main := .drain false }
  | stayEmpty (timeUp) : MainMove s (.testEmpty timeUp) { s with main := .testLimit timeUp }
  | stayLimit (timeUp) : MainMove s (.testLimit timeUp) { s with main := .testTime timeUp }
  | stayTime (timeUp) : MainMove s (.testTime timeUp) { s with main := .loop }
  | drain (unsat top rest) : s.queue = top :: rest → MainMove s (.drain unsat)
      { s with cubes := s.cubes ++ [top], queue := BinaryHeap.pop heavier s.queue }
  | drained (unsat) : s.queue = [] →
      MainMove s (.drain unsat) { s with main := .returned !unsat }

variable {cfg}

theorem expand_cases {s : System π} {timeUp : Bool} (hmain : s.main = .loop) :
    MainMove cfg s s.main (expand cfg s timeUp) := by
  rw [hmain]
  unfold expand
  split
  · exact .idle timeUp
  · rename_i cBest rest hqueue
    split
    · rename_i hguard
      split
      · exact .abort
      · rename_i e he
        exact .expand timeUp cBest rest e hqueue hguard.2.2 he
    · exact .idle timeUp

theorem Main.step_cases {s s' : System π} {now : Bool} (h : Main.step cfg s now = some s') :
    MainMove cfg s s.main s' := by
  unfold Main.step at h
  split at h
  · rename_i hm
    obtain rfl := Option.some.inj h
    exact expand_cases hm
  · rename_i timeUp hm
    obtain rfl := Option.some.inj h
    rw [hm]
    exact .submitted timeUp
  · rename_i timeUp cube pending hm
    obtain rfl := Option.some.inj h
    rw [hm]
    exact .submit timeUp cube pending
  · rename_i timeUp cube pending hm
    obtain rfl := Option.some.inj h
    rw [hm]
    exact .push timeUp cube pending
  · rename_i timeUp hm
    obtain rfl := Option.some.inj h
    rw [hm]
    exact .evaluate timeUp
  · rename_i timeUp block hm
    split at h
    · simp at h
    · rename_i hresults
      obtain rfl := Option.some.inj h
      rw [hm]
      exact .collect timeUp block fun hb hnone => hresults ⟨hb, hnone⟩
  · rename_i timeUp hm
    obtain rfl := Option.some.inj h
    rw [hm]
    split
    · rename_i hexit
      exact .exitEmpty timeUp hexit.1 hexit.2
    · exact .stayEmpty timeUp
  · rename_i timeUp hm
    obtain rfl := Option.some.inj h
    rw [hm]
    split
    · rename_i hexit
      exact .exitLimit timeUp hexit.1 hexit.2
    · exact .stayLimit timeUp
  · rename_i timeUp hm
    obtain rfl := Option.some.inj h
    rw [hm]
    split
    · rename_i hexit
      obtain ⟨rfl, hzero⟩ := hexit
      exact .exitTime hzero
    · exact .stayTime timeUp
  · rename_i unsat hm
    rw [hm]
    split at h
    · rename_i hempty
      obtain rfl := Option.some.inj h
      exact .drained unsat hempty
    · rename_i top rest hqueue
      obtain rfl := Option.some.inj h
      exact .drain unsat top rest hqueue
  · simp at h
  · simp at h

/-- **The steps of the program**: the main thread moves, or one pool thread while the others stand
still. -/
inductive SystemMove (cfg : Config π) (s : System π) : Action → System π → Prop
  | main {s'} (now) : MainMove cfg s s.main s' → SystemMove cfg s (.main now) s'
  | worker {pre w post sat q w'} : s.workers = pre ++ w :: post → WorkerMove s.pool w sat q w' →
      SystemMove cfg s (.worker pre.length sat)
        { s with pool := q, workers := pre ++ w' :: post }

theorem System.step_cases {s s' : System π} {act : Action} (h : s.step cfg act = some s') :
    SystemMove cfg s act s' := by
  cases act with
  | main now => exact .main now (Main.step_cases h)
  | worker i sat =>
      obtain ⟨⟨q, ws⟩, hp, rfl⟩ := Option.map_eq_some_iff.mp h
      obtain ⟨pre, w, w', post, heq, rfl, rfl, hstep⟩ := stepThread_cases hp
      exact .worker heq (workerLoop_cases hstep)

/-! ### What is in flight -/

/-- The main thread has counted a cube that it has not pushed yet. -/
def Main.counted : Main → ℤ
  | .push _ _ _ => 1
  | _ => 0

/-- The thread has a job that is still counted. -/
def Worker.counted : Worker → ℤ
  | .waiting => 0
  | .solving _ => 1
  | .appended => 1

/-- Jobs queued or with a thread, as the counter counts them. -/
def System.jobs (s : System π) : ℤ :=
  s.main.counted + s.pool.jobQueue.length + (s.workers.map Worker.counted).sum

/-- What the counter exceeds the jobs by. -/
def System.slack (s : System π) : ℤ := s.jobs - s.pool.inFlight

theorem WorkerMove.counted {q q' : Pool} {w w' : Worker} {sat : Bool} (h : WorkerMove q w sat q' w') :
    (q'.jobQueue.length - q'.inFlight : ℤ) + w'.counted =
      (q.jobQueue.length - q.inFlight : ℤ) + w.counted := by
  cases h with
  | take cube rest sat hjobs =>
      rw [hjobs, List.length_cons]
      simp only [Worker.counted]
      push_cast
      ring
  | append cube sat => rfl
  | decrement sat =>
      simp only [Worker.counted]
      ring

theorem MainMove.counted {s s' : System π} (h : MainMove cfg s s.main s') : s'.slack = s.slack := by
  generalize hm : s.main = m at h
  have hold : ∀ t : System π, t.pool.jobQueue = s.pool.jobQueue → t.workers = s.workers →
      t.pool.inFlight = s.pool.inFlight → t.main.counted = s.main.counted → t.slack = s.slack := by
    intro t hj hw hi hc
    rw [System.slack, System.slack, System.jobs, System.jobs, hj, hw, hi, hc]
  cases h with
  | submit timeUp cube pending =>
      simp only [System.slack, System.jobs, Main.counted, hm]
      ring
  | push timeUp cube pending =>
      simp only [System.slack, System.jobs, Main.counted, hm, List.length_append, List.length_singleton]
      push_cast
      ring
  | drain unsat top rest hq => exact hold _ rfl rfl rfl rfl
  | _ => exact hold _ rfl rfl rfl (congrArg Main.counted hm).symm

/-- **The counter counts the jobs.** -/
theorem System.inFlight_eq {guard : System π → Action → Prop} {p : π} {nbThreads : ℕ} {s : System π}
    (hr : Reaches (System.step cfg) guard (System.init cfg p nbThreads) s) :
    s.pool.inFlight = s.jobs := by
  have hinv : s.slack = 0 := by
    refine hr.invariant (fun s => s.slack = 0) ?_ ?_
    · simp [System.slack, System.jobs, System.init, Main.counted, Worker.counted]
    · intro s act s' hzero _ hs
      cases System.step_cases hs with
      | main now hm => rw [hm.counted, hzero]
      | @worker pre w post sat q w' heq hw =>
          have hmove := sum_exchange hw.counted pre post
          rw [← hzero, System.slack, System.slack, System.jobs, System.jobs, heq]
          show s.main.counted + (q.jobQueue.length : ℤ) +
            ((pre ++ w' :: post).map Worker.counted).sum - q.inFlight = _
          linarith
  rw [System.slack] at hinv
  linarith

end HydraSAT.CubeGenerator
