import Mathlib.Algebra.Order.BigOperators.Group.List
import HydraSAT.CubeGenerator.Threads

/-!
# The cubes of the thread-pool generator

Every cube is with the main thread, queued as a job, with a thread, or answered, and a model of the
formula satisfies exactly one of these cubes at all times (`System.located_eq_one`).  The exit tests
of the main loop only read `m_inFlight`, which says nothing about the answers that were appended
after the last collection: `System.drops_satisfiable` leaves a satisfiable cube behind and returns
`false`.

* `System.Collected`: the main thread leaves the loop only when no satisfiable cube waits among the
  results;
* `System.returns_partition`: in such runs the returned cubes partition the models of the formula.
-/

namespace HydraSAT.CubeGenerator

open HydraSAT.Lib

variable {π : Type} {cfg : Config π} {F : List Clause} {a : Assignment}

/-! ### Assumptions on a run -/

/-- Some model of the formula satisfies the cube. -/
def HasModel (F : List Clause) (cube : Cube) : Prop :=
  ∃ b, formulaTrue b F = true ∧ cubeTrue b cube = true

/-- The solvers decide satisfiability under the given assumptions. -/
def System.Answers (F : List Clause) (s : System π) (act : Action) : Prop :=
  ∀ i sat cube, act = .worker i sat → s.workers[i]? = some (.solving cube) →
    (sat = true ↔ HasModel F cube)

/-- The exit test that the main thread is at breaks the loop. -/
def System.Exits (cfg : Config π) (s : System π) : Prop :=
  match s.main with
  | .testEmpty _ => s.queue = [] ∧ s.pool.inFlight = 0
  | .testLimit _ => cfg.limitNbCubes ≤ s.queue.length ∧ s.pool.inFlight = 0
  | .testTime timeUp => timeUp = true ∧ s.pool.inFlight = 0
  | _ => False

/-- The satisfiable cubes of a list of results. -/
def satisfiable (results : List (Cube × Bool)) : List Cube :=
  (results.filter fun r => r.2).map fun r => r.1

/-- The loop is left only when no satisfiable cube waits among the results. -/
def System.Collected (cfg : Config π) (s : System π) (act : Action) : Prop :=
  ∀ now, act = .main now → s.Exits cfg → satisfiable s.pool.results = []

/-! ### Where the cubes are -/

/-- The cubes that the main thread has yet to push. -/
def Main.pending : Main → List Cube
  | .submit _ pending => pending
  | .push _ cube pending => cube :: pending
  | _ => []

/-- The cube that a thread is solving. -/
def Worker.cubes : Worker → List Cube
  | .solving cube => [cube]
  | _ => []

/-- How many of all the cubes `a` satisfies. -/
def System.located (a : Assignment) (s : System π) : ℕ :=
  hits a s.cubes + hits a s.queue + hits a s.main.pending +
    (hits a s.pool.jobQueue + hits a (satisfiable s.pool.results)) +
    (s.workers.map fun w => hits a w.cubes).sum

/-- Collecting queues the satisfiable cubes. -/
theorem collectResults_perm (queue : List Cube) (results : List (Cube × Bool)) :
    (collectResults queue results).Perm (satisfiable results ++ queue) := by
  induction results generalizing queue with
  | nil => exact List.Perm.refl _
  | cons r results ih =>
      rw [collectResults, List.foldl_cons]
      cases hr : r.2 with
      | false =>
          have hskip : satisfiable (r :: results) = satisfiable results := by simp [satisfiable, hr]
          rw [hskip]
          exact ih queue
      | true =>
          have hkeep : satisfiable (r :: results) = r.1 :: satisfiable results := by
            simp [satisfiable, hr]
          rw [hkeep]
          refine (ih (BinaryHeap.push heavier queue r.1)).trans ?_
          exact ((BinaryHeap.push_perm queue r.1).append_left _).trans List.perm_middle

theorem satisfiable_append (rs rs' : List (Cube × Bool)) :
    satisfiable (rs ++ rs') = satisfiable rs ++ satisfiable rs' := by
  simp [satisfiable]

theorem WorkerMove.located {q q' : Pool} {w w' : Worker} {sat : Bool} (h : WorkerMove q w sat q' w')
    (ha : formulaTrue a F = true)
    (hans : ∀ cube, w = .solving cube → (sat = true ↔ HasModel F cube)) :
    hits a q'.jobQueue + hits a (satisfiable q'.results) + hits a w'.cubes =
      hits a q.jobQueue + hits a (satisfiable q.results) + hits a w.cubes := by
  cases h with
  | take cube rest sat hjobs =>
      have hsplit := hits_append (a := a) [cube] rest
      rw [hjobs]
      show hits a rest + hits a (satisfiable q.results) + hits a [cube] =
        hits a ([cube] ++ rest) + hits a (satisfiable q.results) + hits a []
      rw [hsplit, hits_nil]
      omega
  | append cube sat =>
      show hits a q.jobQueue + hits a (satisfiable (q.results ++ [(cube, sat)])) + hits a [] =
        hits a q.jobQueue + hits a (satisfiable q.results) + hits a [cube]
      rw [satisfiable_append, hits_append, hits_nil]
      cases sat with
      | true =>
          have hself : satisfiable [(cube, true)] = [cube] := rfl
          rw [hself]
          omega
      | false =>
          -- an unsatisfiable cube is satisfied by no model of the formula
          have hnone : cubeTrue a cube = false := by
            by_contra hc
            exact Bool.false_ne_true ((hans cube rfl).mpr ⟨a, ha, by simpa using hc⟩)
          have hself : satisfiable [(cube, false)] = [] := rfl
          rw [hself, hits_singleton, hnone, hits_nil]
          rfl
  | decrement sat => rfl

theorem MainMove.located {s s' : System π} (h : MainMove cfg s s.main s')
    (hE : cfg.propagator.Sound F) (hnext : ∀ c v, cfg.next c = some v → v ≠ 0)
    (ha : formulaTrue a F = true) (hqueue : ∀ c ∈ s.queue, HasModel F c) :
    s'.located a = s.located a := by
  generalize hm : s.main = m at h
  have hold : ∀ t : System π, t.cubes = s.cubes → t.queue = s.queue → t.pool = s.pool →
      t.workers = s.workers → t.main.pending = m.pending → t.located a = s.located a := by
    intro t hc hq hp hw hmain
    rw [System.located, System.located, hc, hq, hp, hw, hmain, hm]
  cases h with
  | expand timeUp cBest rest e hq _ he =>
      have hsat := hqueue cBest (by rw [hq]; exact List.mem_cons_self)
      have hsplit := createCubes_hits hE hnext ha hsat he
      have hpop : hits a [cBest] + hits a (BinaryHeap.pop heavier s.queue) = hits a s.queue :=
        BinaryHeap.countP_pop hq
      simp only [System.located, Main.pending, hm, hits_append, hits_nil]
      omega
  | submit timeUp cube pending => simp only [System.located, Main.pending, hm]
  | push timeUp cube pending =>
      have hcons := hits_append (a := a) [cube] pending
      simp only [System.located, Main.pending, hm, hits_append]
      have hcons' : hits a (cube :: pending) = hits a [cube] + hits a pending := hcons
      omega
  | collect timeUp block _ =>
      have hperm := hits_perm (a := a) (collectResults_perm s.queue s.pool.results)
      rw [hits_append] at hperm
      have hnil : satisfiable [] = [] := rfl
      simp only [System.located, Main.pending, hm, hperm, hnil, hits_nil]
      omega
  | drain unsat top rest hq =>
      have hpop : hits a [top] + hits a (BinaryHeap.pop heavier s.queue) = hits a s.queue :=
        BinaryHeap.countP_pop hq
      simp only [System.located, hits_append]
      omega
  | _ => exact hold _ rfl rfl rfl rfl rfl

/-! ### Runs -/

/-- What a run keeps, for a model `a` of the formula: the queued cubes are satisfiable, and `a`
satisfies exactly one of all cubes. -/
structure System.Covered (F : List Clause) (a : Assignment) (s : System π) : Prop where
  queued : ∀ c ∈ s.queue, HasModel F c
  answered : ∀ c ∈ satisfiable s.pool.results, HasModel F c
  once : s.located a = 1

theorem MainMove.queued {s s' : System π} (h : MainMove cfg s s.main s')
    (hqueue : ∀ c ∈ s.queue, HasModel F c)
    (hres : ∀ c ∈ satisfiable s.pool.results, HasModel F c) :
    (∀ c ∈ s'.queue, HasModel F c) ∧ ∀ c ∈ satisfiable s'.pool.results, HasModel F c := by
  generalize s.main = m at h
  have hpop : ∀ top rest, s.queue = top :: rest →
      ∀ c ∈ BinaryHeap.pop heavier s.queue, HasModel F c := by
    intro top rest hq c hc
    rw [hq] at hc
    have hrest := (BinaryHeap.pop_perm top rest).subset hc
    exact hqueue c (by rw [hq]; exact List.mem_cons_of_mem top hrest)
  cases h with
  | expand timeUp cBest rest e hq _ he => exact ⟨hpop cBest rest hq, hres⟩
  | collect timeUp block _ =>
      refine ⟨fun c hc => ?_, fun c hc => nomatch hc⟩
      exact (List.mem_append.mp ((collectResults_perm _ _).subset hc)).elim (hres c) (hqueue c)
  | drain unsat top rest hq => exact ⟨hpop top rest hq, hres⟩
  | _ => exact ⟨hqueue, hres⟩

theorem WorkerMove.answered {q q' : Pool} {w w' : Worker} {sat : Bool} (h : WorkerMove q w sat q' w')
    (hans : ∀ cube, w = .solving cube → (sat = true ↔ HasModel F cube))
    (hres : ∀ c ∈ satisfiable q.results, HasModel F c) :
    ∀ c ∈ satisfiable q'.results, HasModel F c := by
  cases h with
  | append cube sat =>
      intro c hc
      have hc' : c ∈ satisfiable q.results ++ satisfiable [(cube, sat)] := by
        rw [← satisfiable_append]
        exact hc
      rcases List.mem_append.mp hc' with hc | hc
      · exact hres c hc
      · cases sat with
        | false => exact absurd hc List.not_mem_nil
        | true =>
            rw [List.mem_singleton.mp hc]
            exact (hans cube rfl).mp rfl
  | take cube rest sat hjobs => exact hres
  | decrement sat => exact hres

theorem System.Covered.step (hE : cfg.propagator.Sound F)
    (hnext : ∀ c v, cfg.next c = some v → v ≠ 0) (ha : formulaTrue a F = true) {s s' : System π}
    {act : Action} (h : s.Covered F a) (hg : s.Answers F act) (hs : s.step cfg act = some s') :
    s'.Covered F a := by
  cases System.step_cases hs with
  | main now hm =>
      obtain ⟨hqueued, hanswered⟩ := hm.queued h.queued h.answered
      exact ⟨hqueued, hanswered, (hm.located hE hnext ha h.queued).trans h.once⟩
  | @worker pre w post sat q w' heq hw =>
      have hans : ∀ cube, w = .solving cube → (sat = true ↔ HasModel F cube) := by
        intro cube hc
        exact hg pre.length sat cube rfl (by rw [heq, ← hc]; simp)
      refine ⟨h.queued, hw.answered hans h.answered, ?_⟩
      have hmove := sum_exchange (f := fun w : Worker => hits a w.cubes) (hw.located ha hans) pre post
      have honce := h.once
      rw [System.located, heq] at honce
      show hits a s.cubes + hits a s.queue + hits a s.main.pending +
        (hits a q.jobQueue + hits a (satisfiable q.results)) +
        ((pre ++ w' :: post).map fun w => hits a w.cubes).sum = 1
      omega

/-! ### Leaving the loop -/

/-- Nothing in flight: no job is queued and every thread waits. -/
theorem System.idle {s : System π} (hcount : s.pool.inFlight = s.jobs) (hzero : s.pool.inFlight = 0) :
    s.pool.jobQueue = [] ∧ ∀ w ∈ s.workers, w = .waiting := by
  have hmain : 0 ≤ s.main.counted := by cases s.main <;> simp [Main.counted]
  have hnonneg : ∀ x ∈ s.workers.map Worker.counted, 0 ≤ x := by
    intro x hx
    obtain ⟨w, -, rfl⟩ := List.mem_map.mp hx
    cases w <;> simp [Worker.counted]
  have hsum := List.sum_nonneg hnonneg
  rw [hzero, System.jobs] at hcount
  refine ⟨List.eq_nil_of_length_eq_zero (by omega), ?_⟩
  intro w hw
  have hle := List.single_le_sum hnonneg w.counted (List.mem_map_of_mem hw)
  cases w with
  | waiting => rfl
  | solving cube =>
      have hone : Worker.counted (.solving cube) = 1 := rfl
      omega
  | appended =>
      have hone : Worker.counted .appended = 1 := rfl
      omega

/-- With nothing in flight, no pending cube and no satisfiable cube among the results, `a` satisfies
one of the cubes of the main thread. -/
theorem System.Covered.settled {s : System π} (h : s.Covered F a)
    (hidle : s.pool.jobQueue = [] ∧ ∀ w ∈ s.workers, w = .waiting)
    (hpending : s.main.pending = []) (hres : satisfiable s.pool.results = []) :
    hits a s.cubes + hits a s.queue = 1 := by
  have hworkers : (s.workers.map fun w => hits a w.cubes).sum = 0 := by
    refine List.sum_eq_zero fun x hx => ?_
    obtain ⟨w, hw, rfl⟩ := List.mem_map.mp hx
    rw [hidle.2 w hw]
    rfl
  have honce := h.once
  rw [System.located, hpending, hidle.1, hres, hworkers] at honce
  simpa using honce

/-- What holds after the loop was left, if the formula has a model. -/
structure System.Left (s : System π) : Prop where
  inFlight : s.pool.inFlight = 0
  results : satisfiable s.pool.results = []
  pending : s.main.pending = []
  notUnsat : s.main ≠ .drain true ∧ s.main ≠ .returned false
  drained : ∀ ok, s.main = .returned ok → s.queue = []

/-- The main thread is past the loop. -/
def Main.left : Main → Bool
  | .drain _ => true
  | .returned _ => true
  | _ => false

theorem MainMove.left {s s' : System π} (h : MainMove cfg s s.main s') (hcov : s.Covered F a)
    (hcount : s.pool.inFlight = s.jobs) (hg : s.Exits cfg → satisfiable s.pool.results = [])
    (hleft : s.main.left = true → s.Left) : s'.main.left = true → s'.Left := by
  generalize hm : s.main = m at h
  intro hl
  cases h with
  | exitEmpty timeUp hq hzero =>
      have hres := hg (by rw [System.Exits, hm]; exact ⟨hq, hzero⟩)
      have hone := hcov.settled (System.idle hcount hzero) (by rw [hm]; rfl) hres
      have hcubes : s.cubes.isEmpty = false := by
        cases hc : s.cubes with
        | nil =>
            rw [hc, hq] at hone
            exact absurd hone (by simp)
        | cons c cs => rfl
      refine ⟨hzero, hres, rfl, ⟨?_, nofun⟩, nofun⟩
      intro hd
      exact Bool.false_ne_true (hcubes.symm.trans (Main.drain.inj hd))
  | exitLimit timeUp hq hzero =>
      have hres := hg (by rw [System.Exits, hm]; exact ⟨hq, hzero⟩)
      exact ⟨hzero, hres, rfl, ⟨nofun, nofun⟩, nofun⟩
  | exitTime hzero =>
      have hres := hg (by rw [System.Exits, hm]; exact ⟨rfl, hzero⟩)
      exact ⟨hzero, hres, rfl, ⟨nofun, nofun⟩, nofun⟩
  | drain unsat top rest hq =>
      obtain ⟨hzero, hres, hpending, hflag, -⟩ := hleft (by rw [hm]; rfl)
      exact ⟨hzero, hres, hpending, hflag, fun ok hok => Main.noConfusion (hm.symm.trans hok)⟩
  | drained unsat hq =>
      obtain ⟨hzero, hres, -, hflag, -⟩ := hleft (by rw [hm]; rfl)
      refine ⟨hzero, hres, rfl, ⟨nofun, ?_⟩, fun _ _ => hq⟩
      intro hret
      refine hflag.1 (hm.trans (congrArg Main.drain ?_))
      simpa using Main.returned.inj hret
  | idle timeUp => exact Bool.noConfusion hl
  | expand timeUp cBest rest e _ _ _ => exact Bool.noConfusion hl
  | abort => exact Bool.noConfusion hl
  | submitted timeUp => exact Bool.noConfusion hl
  | submit timeUp cube pending => exact Bool.noConfusion hl
  | push timeUp cube pending => exact Bool.noConfusion hl
  | evaluate timeUp => exact Bool.noConfusion hl
  | collect timeUp block _ => exact Bool.noConfusion hl
  | stayEmpty timeUp => exact Bool.noConfusion hl
  | stayLimit timeUp => exact Bool.noConfusion hl
  | stayTime timeUp => exact Bool.noConfusion hl

/-- Threads stand still once nothing is in flight. -/
theorem WorkerMove.not_idle {q q' : Pool} {w w' : Worker} {sat : Bool}
    (h : WorkerMove q w sat q' w') (hjobs : q.jobQueue = []) : w ≠ .waiting := by
  cases h with
  | take cube rest sat hj => exact absurd (hjobs.symm.trans hj) nofun
  | append cube sat => exact nofun
  | decrement sat => exact nofun

section Runs

variable {p : π} {nbThreads : ℕ} {s : System π}

theorem System.init_covered (hE : cfg.propagator.Sound F) (ha : formulaTrue a F = true)
    (hstart : cubeTrue a (cfg.propagator.getTrail p) = true) :
    (System.init cfg p nbThreads).Covered F a := by
  have htrail := (hE.propagate_trail (p := p) ha).trans hstart
  have hqueue : (System.init cfg p nbThreads).queue =
      [cfg.propagator.getTrail (cfg.propagator.propagate p).2] := rfl
  refine ⟨?_, fun c hc => absurd hc List.not_mem_nil, ?_⟩
  · intro c hc
    rw [hqueue] at hc
    rw [List.mem_singleton.mp hc]
    exact ⟨a, ha, htrail⟩
  · rw [System.located, hqueue, hits_singleton, htrail]
    simp [System.init, Main.pending, satisfiable, Worker.cubes]

/-- **A model satisfies exactly one of all cubes**, wherever they are. -/
theorem System.located_eq_one (hE : cfg.propagator.Sound F)
    (hnext : ∀ c v, cfg.next c = some v → v ≠ 0) (ha : formulaTrue a F = true)
    (hstart : cubeTrue a (cfg.propagator.getTrail p) = true)
    (hr : Reaches (System.step cfg) (System.Answers F) (System.init cfg p nbThreads) s) :
    s.Covered F a :=
  hr.invariant (fun s => s.Covered F a) (System.init_covered hE ha hstart)
    fun _ _ _ h hg hs => h.step hE hnext ha hg hs

/-- Once the main thread has left the loop, nothing is on its way. -/
theorem System.left_of_covered
    (hcov : ∀ t, Reaches (System.step cfg) (System.Answers F) (System.init cfg p nbThreads) t →
      t.Covered F a)
    (hr : Reaches (System.step cfg) (fun s act => s.Answers F act ∧ s.Collected cfg act)
      (System.init cfg p nbThreads) s) : s.main.left = true → s.Left := by
  refine hr.invariant' (fun s => s.main.left = true → s.Left) (fun h => Bool.noConfusion h) ?_
  intro s act s' hreach ih hg hs
  have hcount := System.inFlight_eq hreach
  cases System.step_cases hs with
  | main now hm => exact hm.left (hcov s (hreach.mono fun _ _ h => h.1)) hcount (hg.2 now rfl) ih
  | @worker pre w post sat q w' heq hw =>
      intro hl
      obtain ⟨hjobs, hwait⟩ := System.idle hcount (ih hl).inFlight
      exact absurd (hwait w (by rw [heq]; simp)) (hw.not_idle hjobs)

/-- **What is returned when every model is covered all the time.** -/
theorem System.partition_of_covered
    (hcov : ∀ a, formulaTrue a F = true → ∀ t,
      Reaches (System.step cfg) (System.Answers F) (System.init cfg p nbThreads) t → t.Covered F a)
    (hr : Reaches (System.step cfg) (fun s act => s.Answers F act ∧ s.Collected cfg act)
      (System.init cfg p nbThreads) s) {ok : Bool} (hret : s.main = .returned ok) :
    (∀ a, formulaTrue a F = true → hits a s.cubes = 1) ∧
      (ok = false → ∀ a, formulaTrue a F = false) := by
  have hleft : ∀ a, formulaTrue a F = true → s.Left := fun a ha =>
    System.left_of_covered (hcov a ha) hr (by rw [hret]; rfl)
  constructor
  · intro a ha
    obtain ⟨hzero, hres, hpending, -, hdrained⟩ := hleft a ha
    have hone := (hcov a ha s (hr.mono fun _ _ h => h.1)).settled
      (System.idle (System.inFlight_eq hr) hzero) hpending hres
    rwa [hdrained ok hret, hits_nil, Nat.add_zero] at hone
  · intro hok a
    by_contra ha
    have hflag := (hleft a (by simpa using ha)).notUnsat.2
    exact hflag (hret.trans (congrArg Main.returned hok))

/-- **No satisfiable cube is lost.**  In runs that leave the loop only after the satisfiable results
are collected, every model of the formula satisfies exactly one returned cube, and `generate` returns
`false` only if there is no model. -/
theorem System.returns_partition (hE : cfg.propagator.Sound F)
    (hnext : ∀ c v, cfg.next c = some v → v ≠ 0)
    (hstart : ∀ a, formulaTrue a F = true → cubeTrue a (cfg.propagator.getTrail p) = true)
    (hr : Reaches (System.step cfg) (fun s act => s.Answers F act ∧ s.Collected cfg act)
      (System.init cfg p nbThreads) s) {ok : Bool} (hret : s.main = .returned ok) :
    (∀ a, formulaTrue a F = true → hits a s.cubes = 1) ∧
      (ok = false → ∀ a, formulaTrue a F = false) :=
  System.partition_of_covered
    (fun a ha _ hreach => System.located_eq_one hE hnext ha (hstart a ha) hreach) hr hret

end Runs

/-! ### A formula whose first variable is false -/

/-- The models are the assignments in which variable 1 is false. -/
def notFirst : List Clause := [[-1, 2, 3], [-1, 2, -3], [-1, -2, 3], [-1, -2, -3]]

/-- The generator on three variables, asked for two cubes. -/
def threeVars : Config Cube :=
  { propagator := .decisions, next := firstOpen 3, limitNbCubes := 2 }

theorem hasModel_notFirst {cube : Cube} (hcube : cube = [1] ∨ cube = [-1]) :
    HasModel notFirst cube ↔ cube = [-1] := by
  constructor
  · rintro ⟨b, hb, hc⟩
    rcases hcube with rfl | rfl
    · have h1 : b 1 = true := by simpa [cubeTrue, litTrue] using hc
      cases h2 : b 2 <;> cases h3 : b 3 <;>
        simp [notFirst, formulaTrue, clauseTrue, litTrue, h1, h2, h3] at hb
    · rfl
  · rintro rfl
    exact ⟨fun _ => false, rfl, rfl⟩

/-- `Answers` on the two cubes of the first split, evaluated. -/
def System.answersCheck (s : System π) : Action → Bool
  | .main _ => true
  | .worker i sat =>
      match s.workers[i]? with
      | some (.solving cube) => (cube == [1] && !sat) || (cube == [-1] && sat)
      | _ => true

theorem System.answers_of_check {s : System π} {act : Action} (h : s.answersCheck act = true) :
    s.Answers notFirst act := by
  intro i sat cube hact hw
  subst hact
  simp only [System.answersCheck, hw, Bool.or_eq_true, Bool.and_eq_true, beq_iff_eq,
    Bool.not_eq_true'] at h
  rcases h with ⟨hc, hs⟩ | ⟨hc, hs⟩
  · rw [hasModel_notFirst (.inl hc), hc, hs]
    simp
  · rw [hasModel_notFirst (.inr hc), hc, hs]
    simp

/-- No result waits, except where the main thread collects. -/
def System.collectedCheck (s : System π) : Bool :=
  match s.main with
  | .collect _ _ => true
  | _ => s.pool.results.isEmpty

theorem System.collected_of_check {s : System π} {act : Action}
    (h : ∀ now, act = .main now → s.collectedCheck = true) : s.Collected cfg act := by
  intro now hact hexit
  have hc := h now hact
  unfold System.collectedCheck at hc
  split at hc
  · rename_i hmain
    rw [System.Exits, hmain] at hexit
    exact hexit.elim
  · rw [List.isEmpty_iff.mp hc]
    rfl

/-- The main thread splits the empty cube and submits both children. -/
def firstSplit : List Action := List.replicate 7 (.main false)

/-- One thread solves both cubes before the main thread collects; then time is up. -/
def patient : List Action :=
  [firstSplit, [.worker 0 false, .worker 0 false, .worker 0 false, .worker 0 true, .worker 0 true,
    .worker 0 true], List.replicate 4 (.main false), List.replicate 8 (.main true)].flatten

/-- The outcome of `generate`, once it has returned. -/
def System.outcome (s : System π) : Option (Bool × List Cube) :=
  match s.main with
  | .returned ok => some (ok, s.cubes)
  | _ => none

theorem System.main_of_outcome {s : System π} {ok : Bool} {cubes : List Cube}
    (h : s.outcome = some (ok, cubes)) : s.main = .returned ok ∧ s.cubes = cubes := by
  unfold System.outcome at h
  split at h
  · rename_i ok' hmain
    obtain ⟨rfl, rfl⟩ := Prod.mk.inj (Option.some.inj h)
    exact ⟨hmain, rfl⟩
  · exact nomatch h

theorem System.returns_partition_notFirst :
    (∀ a, formulaTrue a notFirst = true → hits a [[-1]] = 1) ∧
      (true = false → ∀ a, formulaTrue a notFirst = false) := by
  have hrun : (exec (fun s act => if System.answersCheck s act && (act matches .worker _ _ ||
      s.collectedCheck) then System.step threeVars s act else none)
      (.init threeVars [] 1) patient).map System.outcome = some (some (true, [[-1]])) := by
    decide +kernel
  obtain ⟨s, hs, hout⟩ := Option.map_eq_some_iff.mp hrun
  obtain ⟨hmain, hcubes⟩ := System.main_of_outcome hout
  have hr : Reaches (System.step threeVars) (fun s act => s.Answers notFirst act ∧
      s.Collected threeVars act) (.init threeVars [] 1) s := by
    refine Reaches.of_exec_checked (fun s act h => ?_) hs
    obtain ⟨hans, hcol⟩ := Bool.and_eq_true_iff.mp h
    refine ⟨System.answers_of_check hans, System.collected_of_check fun now hact => ?_⟩
    subst hact
    exact hcol
  rw [← hcubes]
  exact System.returns_partition (Propagator.decisions_sound notFirst) (firstOpen_ne_zero 3)
    (fun _ _ => rfl) hr hmain

/-- The main thread blocks, collects the unsatisfiable cube alone, and runs its exit test after the
other cube was answered. -/
def hasty : List Action :=
  [firstSplit, [.worker 0 false, .worker 0 false, .main false, .worker 0 false, .worker 0 true,
    .worker 0 true, .worker 0 true], List.replicate 2 (.main false)].flatten

/-- **A satisfiable formula reported unsatisfiable.**  The loop is left while a satisfiable cube
waits among the results. -/
theorem System.drops_satisfiable : ¬∀ (s : System Cube) (ok : Bool),
    Reaches (System.step threeVars) (System.Answers notFirst) (.init threeVars [] 1) s →
    s.main = .returned ok →
    (∀ a, formulaTrue a notFirst = true → hits a s.cubes = 1) ∧
      (ok = false → ∀ a, formulaTrue a notFirst = false) := by
  intro hclaim
  have hrun : (exec (fun s act => if System.answersCheck s act then System.step threeVars s act
      else none) (.init threeVars [] 1) hasty).map System.outcome = some (some (false, [])) := by
    decide +kernel
  obtain ⟨s, hs, hout⟩ := Option.map_eq_some_iff.mp hrun
  have hr := Reaches.of_exec_checked (fun _ _ => System.answers_of_check) hs
  have hunsat := (hclaim s false hr (System.main_of_outcome hout).1).2 rfl fun _ => false
  exact Bool.noConfusion hunsat

end HydraSAT.CubeGenerator
