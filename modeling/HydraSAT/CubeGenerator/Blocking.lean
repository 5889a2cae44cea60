import HydraSAT.CubeGenerator.Partition

/-!
# Waiting for results

A thread decrements `m_inFlight` after it has appended its result.  The last result can therefore be
collected while the counter is still positive; `mustBlock` is then true and the main thread waits for a
result that cannot come (`System.blocks_forever`).  It never does in schedules in which no thread stands
between the two when `mustBlock` is evaluated with an empty queue and no result
(`System.blocked_has_work`): the counter then counts queued and unanswered jobs only.
-/

namespace HydraSAT.CubeGenerator

open HydraSAT.Lib

variable {π : Type} {cfg : Config π}

/-! ### The blocked main thread -/

/-- The thread holds a job whose result it has not appended. -/
def Worker.solves : Worker → ℤ
  | .solving _ => 1
  | _ => 0

/-- The thread stands between the append and the decrement. -/
def Worker.settling : Worker → ℤ
  | .appended => 1
  | _ => 0

/-- The main thread waits in `collectResults`. -/
def System.Blocked (s : System π) : Prop :=
  ∃ timeUp, s.main = .collect timeUp true ∧ s.pool.results = []

/-- A result is there, or on its way. -/
def System.HasWork (s : System π) : Prop :=
  s.pool.results ≠ [] ∨ s.pool.jobQueue ≠ [] ∨ ∃ cube, Worker.solving cube ∈ s.workers

/-- When `mustBlock` is evaluated with an empty queue and no result, no thread stands between the append
of its result and the decrement. -/
def System.Settled (s : System π) (act : Action) : Prop :=
  ∀ now timeUp, act = .main now → s.main = .mustBlock timeUp → s.queue = [] → s.pool.results = [] →
    Worker.appended ∉ s.workers

/-- The jobs with threads are being solved or settled. -/
theorem sum_counted (ws : List Worker) : (ws.map Worker.counted).sum =
    (ws.map Worker.solves).sum + (ws.map Worker.settling).sum := by
  induction ws with
  | nil => rfl
  | cons w ws ih =>
      have hw : w.counted = w.solves + w.settling := by cases w <;> rfl
      rw [List.map_cons, List.sum_cons, ih, hw, List.map_cons, List.sum_cons, List.map_cons,
        List.sum_cons]
      ring

theorem exists_solving {ws : List Worker} (h : 0 < (ws.map Worker.solves).sum) :
    ∃ cube, Worker.solving cube ∈ ws := by
  induction ws with
  | nil => exact absurd h (lt_irrefl _)
  | cons w ws ih =>
      cases w with
      | solving cube => exact ⟨cube, List.mem_cons_self⟩
      | waiting =>
          obtain ⟨cube, hc⟩ := ih (by simpa [Worker.solves] using h)
          exact ⟨cube, List.mem_cons_of_mem _ hc⟩
      | appended =>
          obtain ⟨cube, hc⟩ := ih (by simpa [Worker.solves] using h)
          exact ⟨cube, List.mem_cons_of_mem _ hc⟩

theorem sum_settling {ws : List Worker} (h : Worker.appended ∉ ws) : (ws.map Worker.settling).sum = 0 := by
  refine List.sum_eq_zero fun n hn => ?_
  obtain ⟨w, hw, rfl⟩ := List.mem_map.mp hn
  cases w with
  | appended => exact absurd hw h
  | _ => rfl

/-- **What a positive counter counts**, when no thread has yet to decrement it: a queued or a held job. -/
theorem System.hasWork_of_inFlight {s : System π} (hcount : s.pool.inFlight = s.jobs)
    (hmain : s.main.counted = 0) (hsettled : Worker.appended ∉ s.workers) (h : 0 < s.pool.inFlight) :
    s.HasWork := by
  rw [hcount, System.jobs, hmain, sum_counted, sum_settling hsettled] at h
  by_cases hjobs : s.pool.jobQueue = []
  · rw [hjobs, List.length_nil, Nat.cast_zero, add_zero, zero_add] at h
    exact .inr (.inr (exists_solving (by linarith)))
  · exact .inr (.inl hjobs)

theorem System.HasWork.worker {s : System π} {pre post : List Worker} {w w' : Worker} {q : Pool}
    {sat : Bool} (heq : s.workers = pre ++ w :: post) (hw : WorkerMove s.pool w sat q w')
    (h : s.HasWork) :
    System.HasWork { s with pool := q, workers := pre ++ w' :: post } := by
  cases hw with
  | take cube rest sat hjobs => exact .inr (.inr ⟨cube, by simp⟩)
  | append cube sat => exact .inl (by simp)
  | decrement sat =>
      rcases h with hres | hjobs | ⟨cube, hc⟩
      · exact .inl hres
      · exact .inr (.inl hjobs)
      · rw [heq] at hc
        refine .inr (.inr ⟨cube, ?_⟩)
        rcases List.mem_append.mp hc with hc | hc
        · exact List.mem_append_left _ hc
        · exact List.mem_append_right _ ((List.mem_cons.mp hc).elim nofun (List.mem_cons_of_mem _))

/-- **A blocked main thread has something to wait for**, in runs in which no thread is about to decrement
the counter when the decision to block is taken. -/
theorem System.blocked_has_work {p : π} {nbThreads : ℕ} {s : System π}
    (hr : Reaches (System.step cfg) System.Settled (System.init cfg p nbThreads) s) :
    s.Blocked → s.HasWork := by
  have hinv : ∀ timeUp, s.main = .collect timeUp true → s.HasWork := by
    refine hr.invariant' (fun s => ∀ timeUp, s.main = .collect timeUp true → s.HasWork) ?_ ?_
    · intro timeUp h
      exact Main.noConfusion h
    · intro s act s' hreach ih hg hs
      have hcount := System.inFlight_eq hreach
      cases System.step_cases hs with
      | main now hm =>
          intro timeUp hblock
          generalize hmain : s.main = m at hm
          cases hm with
          | evaluate up =>
              obtain ⟨hempty, hpos⟩ : s.queue.isEmpty = true ∧ 0 < s.pool.inFlight := by
                simpa using (Main.collect.inj hblock).2
              have hwork : s.HasWork := by
                by_cases hres : s.pool.results = []
                · have hsettled := hg now up rfl hmain (List.isEmpty_iff.mp hempty) hres
                  exact System.hasWork_of_inFlight hcount (by rw [hmain]; rfl) hsettled hpos
                · exact .inl hres
              exact hwork
          | drain unsat top rest hq => exact Main.noConfusion (hmain.symm.trans hblock)
          | _ => exact Main.noConfusion hblock
      | worker heq hw =>
          intro timeUp hblock
          exact (ih timeUp hblock).worker heq hw
  rintro ⟨timeUp, hblock, -⟩
  exact hinv timeUp hblock

/-- The formula of all clauses over three variables. -/
def noModel : List Clause :=
  [[1, 2, 3], [1, 2, -3], [1, -2, 3], [1, -2, -3], [-1, 2, 3], [-1, 2, -3], [-1, -2, 3], [-1, -2, -3]]

theorem answers_noModel (s : System π) (act : Action) (h : ∀ i, act ≠ .worker i true) :
    s.Answers noModel act := by
  intro i sat cube hact _
  have hfalse : sat = false := by
    cases sat with
    | false => rfl
    | true => exact absurd hact (h i)
  have hnone : ¬HasModel noModel cube := by
    rintro ⟨b, hb, -⟩
    cases h1 : b 1 <;> cases h2 : b 2 <;> cases h3 : b 3 <;>
      simp [noModel, formulaTrue, clauseTrue, litTrue, h1, h2, h3] at hb
  simp [hfalse, hnone]

/-- `Settled`, evaluated. -/
def System.settledCheck (s : System π) : Bool :=
  match s.main with
  | .mustBlock _ =>
      !s.queue.isEmpty || !s.pool.results.isEmpty || s.workers.all fun w => decide (w.settling = 0)
  | _ => true

theorem System.settled_of_check {s : System π} {act : Action} (h : s.settledCheck = true) :
    s.Settled act := by
  intro now timeUp _ hmain hempty hres hmem
  have hall : ∀ w ∈ s.workers, w.settling = 0 := by
    simpa [System.settledCheck, hmain, hempty, hres] using h
  exact one_ne_zero (hall _ hmem)

/-- The main thread blocks while both jobs are queued. -/
theorem System.blocked_has_work_firstSplit :
    ∃ s : System Cube, s.Blocked ∧ s.HasWork := by
  have hrun : (exec (fun s act => if System.settledCheck s then System.step threeVars s act
      else none) (.init threeVars [] 1) firstSplit).map (fun s => (s.main, s.pool.results)) =
        some (.collect false true, []) := by
    rfl
  obtain ⟨s, hs, hout⟩ := Option.map_eq_some_iff.mp hrun
  obtain ⟨hmain, hres⟩ := Prod.mk.inj hout
  have hr : Reaches (System.step threeVars) System.Settled (.init threeVars [] 1) s :=
    Reaches.of_exec_checked (fun _ _ => System.settled_of_check) hs
  exact ⟨s, ⟨false, hmain, hres⟩, System.blocked_has_work hr ⟨false, hmain, hres⟩⟩

/-- The main thread collects each answer before its thread decrements the counter, and decides to
block between the two. -/
def eager : List Action :=
  [firstSplit, [.worker 0 false, .worker 0 false, .main false, .worker 0 false],
    List.replicate 5 (.main false), [.worker 0 false, .worker 0 false],
    List.replicate 6 (.main false)].flatten

/-- **A wait for a result that cannot come.** -/
theorem System.blocks_forever : ¬∀ s : System Cube,
    Reaches (System.step threeVars) (System.Answers noModel) (.init threeVars [] 1) s →
    s.Blocked → s.HasWork := by
  intro hclaim
  have hrun : (exec (System.step threeVars) (.init threeVars [] 1) eager).map
      (fun s => (s.main, s.pool, s.workers)) =
        some (.collect false true, ⟨[], [], 1⟩, [.appended]) := by
    rfl
  obtain ⟨s, hs, hout⟩ := Option.map_eq_some_iff.mp hrun
  obtain ⟨hmain, hrest⟩ := Prod.mk.inj hout
  obtain ⟨hpool, hworkers⟩ := Prod.mk.inj hrest
  have hr : Reaches (System.step threeVars) (System.Answers noModel) (.init threeVars [] 1) s := by
    refine Reaches.of_exec (fun s act hact => answers_noModel s act fun i hi => ?_) hs
    subst hi
    exact absurd hact (by simp [eager, firstSplit])
  rcases hclaim s hr ⟨false, hmain, by rw [hpool]⟩ with hres | hjobs | ⟨cube, hc⟩
  · exact hres (by rw [hpool])
  · exact hjobs (by rw [hpool])
  · rw [hworkers] at hc
    exact absurd (List.mem_singleton.mp hc) nofun

end HydraSAT.CubeGenerator
