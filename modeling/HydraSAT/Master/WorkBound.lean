import HydraSAT.Master.Bookkeeping

/-!
# How many tasks a problem takes

A timeout replaces a task by two with one literal more.  If no cube of `k` or more literals is split, the
tasks that come from a cube form a binary tree of bounded depth.  An id that is issued takes one task out
of what its cube allows, a split hands the rest over to the children, and no other step adds any.

* `descendants`: the tasks that may still come from a cube whose task is issued;
* `System.allowance_le`: ids issued and tasks still allowed, together;
* `System.tasks_bounded`: the bound for the cubes of `main`.
-/

namespace HydraSAT.Master

open HydraSAT.Lib

/-- The nodes below the root of a binary tree that is as deep as the cube has literals to go. -/
def descendants (k : ℕ) (cube : Cube) : ℤ := 2 ^ (k - cube.length + 1) - 2

/-- What some cubes allow that have no task yet. -/
def allowed (k : ℕ) (cubes : List Cube) : ℤ := (cubes.map fun c => descendants k c + 1).sum

variable {k : ℕ}

theorem descendants_nonneg (k : ℕ) (cube : Cube) : 0 ≤ descendants k cube := by
  have hpow : (2 : ℤ) ^ 1 ≤ 2 ^ (k - cube.length + 1) := by
    exact pow_le_pow_right₀ (by decide) (by omega)
  rw [descendants]
  omega

theorem allowed_cons (cube : Cube) (cubes : List Cube) :
    allowed k (cube :: cubes) = descendants k cube + 1 + allowed k cubes := by
  rw [allowed, List.map_cons, List.sum_cons]
  rfl

theorem allowed_nonneg (cubes : List Cube) : 0 ≤ allowed k cubes := by
  induction cubes with
  | nil => exact le_refl 0
  | cons cube cubes ih =>
      have hone := descendants_nonneg k cube
      rw [allowed_cons]
      omega

/-- **The children of a cube** allow what the cube has left. -/
theorem allowed_split {cube : Cube} (hk : cube.length < k) (entries : List (ℤ × ℕ)) :
    allowed k (splitCubeSmart cube entries) = descendants k cube := by
  have hchild : ∀ l : ℤ, descendants k (cube ++ [l]) = 2 ^ (k - cube.length) - 2 := by
    intro l
    rw [descendants, List.length_append, List.length_singleton]
    congr 2
    omega
  rw [splitCubeSmart, allowed_cons, allowed_cons, hchild, hchild, descendants, pow_succ]
  show _ + (_ + (0 : ℤ)) = _
  ring

/-! ### What is allowed where -/

/-- The cubes that have a task and may be split. -/
def TaskManager.descendants (k : ℕ) (tm : TaskManager) : ℤ :=
  (tm.outstanding.map (Master.descendants k)).sum

/-- What a running `EnqueueCubes` may still issue, now or later. -/
def EnqueueCubes.allowed (k : ℕ) : EnqueueCubes → ℤ
  | .loop rest => Master.allowed k rest
  | .insert _ cube rest => descendants k cube + Master.allowed k rest
  | .activate _ _ rest => Master.allowed k rest
  | .send _ rest => Master.allowed k rest

def SubmitResult.allowed (k : ℕ) : SubmitResult → ℤ
  | .release _ _ cube => descendants k cube
  | .updateWorker _ _ cube => descendants k cube
  | .countTimeout _ cube => descendants k cube
  | .split _ cube => descendants k cube
  | .enqueue _ _ _ e => e.allowed k
  | _ => 0

def Handler.allowed (k : ℕ) : Handler → ℤ
  | .getTask _ => 0
  | .submitResult h => h.allowed k

def Solve.allowed (k : ℕ) : Solve → ℤ
  | .broadcast cubes => Master.allowed k cubes
  | .countTotal cubes => Master.allowed k cubes
  | .load e => e.allowed k
  | _ => 0

/-- The ids issued, and what the outstanding tasks allow. -/
def MasterServer.allowance (k : ℕ) (s : MasterServer) : ℤ :=
  s.taskManager.nextID + s.taskManager.descendants k

/-- What never grows. -/
abbrev System.allowance (k : ℕ) (s : System) : ℤ :=
  s.total (fun m => m.allowance k) (fun p => p.allowed k) (fun h => h.allowed k)

theorem EnqueueCubes.allowed_nonneg (e : EnqueueCubes) : 0 ≤ e.allowed k := by
  cases e with
  | insert id cube rest => exact add_nonneg (descendants_nonneg k cube) (Master.allowed_nonneg rest)
  | _ => exact Master.allowed_nonneg _

theorem Handler.allowed_nonneg (h : Handler) : 0 ≤ h.allowed k := by
  cases h with
  | getTask h => exact le_refl 0
  | submitResult h =>
      cases h with
      | enqueue r cube newCubes e => exact e.allowed_nonneg
      | release r hostname cube => exact descendants_nonneg k cube
      | updateWorker r hostname cube => exact descendants_nonneg k cube
      | countTimeout r cube => exact descendants_nonneg k cube
      | split r cube => exact descendants_nonneg k cube
      | _ => exact le_refl 0

theorem Solve.allowed_nonneg (p : Solve) : 0 ≤ p.allowed k := by
  cases p with
  | broadcast cubes => exact Master.allowed_nonneg cubes
  | countTotal cubes => exact Master.allowed_nonneg cubes
  | load e => exact e.allowed_nonneg
  | _ => exact le_refl 0

theorem TaskManager.descendants_nonneg (tm : TaskManager) : 0 ≤ tm.descendants k := by
  refine List.sum_nonneg fun n hn => ?_
  obtain ⟨cube, -, rfl⟩ := List.mem_map.mp hn
  exact Master.descendants_nonneg k cube

/-! ### Moves -/

theorem TaskManager.descendants_enter {tm : TaskManager} {id : ℤ} (cube : Cube)
    (hfresh : id ∉ tm.checkbook) :
    (tm.enter id cube).descendants k = Master.descendants k cube + tm.descendants k := by
  show ((((tm.checkbook.insert id ⟨cube, ""⟩).entries.map _).map _).sum : ℤ) = _
  rw [List.map_map, sum_insert _ hfresh, TaskManager.descendants, TaskManager.outstanding, List.map_map]
  rfl

theorem TaskManager.descendants_deleteTask {tm : TaskManager} {id : ℤ} {entry : TaskEntry}
    (hl : tm.checkbook.lookup id = some entry) :
    tm.descendants k = Master.descendants k entry.cube + (tm.deleteTask id).descendants k := by
  have hdel : (tm.deleteTask id).outstanding =
      (tm.checkbook.erase id).entries.map fun e => e.2.cube := by
    unfold TaskManager.deleteTask
    rw [hl]
    rfl
  rw [TaskManager.descendants, TaskManager.descendants, hdel, TaskManager.outstanding, List.map_map,
    List.map_map, sum_erase _ hl]
  rfl

theorem TaskManager.allowance_recordAssignment (tm : TaskManager) (id : ℤ) (hostname : String) :
    (tm.recordAssignment id hostname).nextID = tm.nextID ∧
      (tm.recordAssignment id hostname).descendants k = tm.descendants k := by
  unfold TaskManager.recordAssignment
  split
  · rename_i e he
    refine ⟨rfl, ?_⟩
    simp only [TaskManager.descendants, TaskManager.outstanding, List.map_map]
    exact sum_overwrite _ he rfl
  · exact ⟨rfl, rfl⟩

/-- **Issuing an id** takes one of what is allowed, and entering a task moves the rest to it. -/
theorem enqueueStep_allowance {tm tm' : TaskManager} {e e' : EnqueueCubes}
    (hfresh : ∀ x ∈ e.drawn, x ∉ tm.checkbook) (h : enqueueStep tm e = some (tm', e')) :
    tm'.nextID + tm'.descendants k + e'.allowed k = tm.nextID + tm.descendants k + e.allowed k := by
  rcases enqueueStep_cases h with ⟨cube, rest, rfl, rfl, rfl⟩ | ⟨id, cube, rest, rfl, -, rfl, rfl⟩ |
    ⟨id, cube, rest, rfl, rfl, rfl⟩ | ⟨task, rest, rfl, -, rfl, rfl⟩
  · show tm.nextID + 1 + tm.descendants k + (Master.descendants k cube + allowed k rest) =
      tm.nextID + tm.descendants k + allowed k (cube :: rest)
    rw [allowed_cons]
    ring
  · show tm.nextID + (tm.enter id cube).descendants k + allowed k rest =
      tm.nextID + tm.descendants k + (Master.descendants k cube + allowed k rest)
    rw [TaskManager.descendants_enter cube (hfresh id (by simp [EnqueueCubes.drawn]))]
    ring
  · rfl
  · rfl

theorem HandlerMove.allowance {s s' : MasterServer} {h h' : Handler} (hm : HandlerMove s h s' h')
    (hfresh : ∀ x ∈ h.call.drawn, x ∉ s.taskManager.checkbook)
    (hsplit : ∀ r cube, h = .submitResult (.split r cube) → cube.length < k) :
    s'.allowance k + h'.allowed k ≤ s.allowance k + h.allowed k := by
  cases hm with
  | getTask hg =>
      cases hg with
      | record w task _ =>
          obtain ⟨hid, hdesc⟩ := s.taskManager.allowance_recordAssignment (k := k) task.taskId w.hostname
          show (s.taskManager.recordAssignment task.taskId w.hostname).nextID + _ + 0 ≤ _
          rw [hid, hdesc]
          exact le_refl _
      | _ => exact le_refl _
  | submitResult hm =>
      cases hm with
      | accept r entry _ hl =>
          have hdel := @TaskManager.descendants_deleteTask k _ _ _ hl
          have hid : (s.taskManager.deleteTask r.taskId).nextID = s.taskManager.nextID := by
            unfold TaskManager.deleteTask
            split <;> rfl
          show (s.taskManager.deleteTask r.taskId).nextID +
            (s.taskManager.deleteTask r.taskId).descendants k + descendants k entry.cube ≤
              s.taskManager.nextID + s.taskManager.descendants k + 0
          omega
      | parsed r hostname cube val _ _ => exact add_le_add_right (descendants_nonneg k cube) _
      | unparsed r hostname cube _ _ => exact add_le_add_right (descendants_nonneg k cube) _
      | split r cube entries _ =>
          show s.allowance k + allowed k (splitCubeSmart cube entries) ≤ _
          rw [allowed_split (hsplit r cube rfl)]
          exact le_refl _
      | enqueue r cube newCubes e tm' e' he => exact (enqueueStep_allowance hfresh he).le
      | _ => exact le_refl _

theorem SolveMove.allowance {s s' : MasterServer} {p p' : Solve} (hm : SolveMove s p s' p')
    (hfresh : ∀ x ∈ p.call.drawn, x ∉ s.taskManager.checkbook) :
    s'.allowance k + p'.allowed k = s.allowance k + p.allowed k := by
  cases hm with
  | load e tm' e' he => exact enqueueStep_allowance hfresh he
  | _ => rfl

/-! ### Runs -/

section Runs

variable {cfg : HeuristicConfig} {workers : WorkerTracker} {cnf : CNFData} {cubes : List Cube}
  {s : System}

/-- No cube of `k` or more literals is split. -/
def System.ShallowAt (k : ℕ) (s : System) (act : Action) : Prop :=
  ∀ i c r cube, act = .handler i c → s.handlers[i]? = some (.submitResult (.split r cube)) →
    cube.length < k

/-- **Issued and still allowed together** are never more than the initial cubes allow. -/
theorem System.allowance_le
    (hr : Reaches System.step (System.ShallowAt k) (.init cfg workers cnf cubes) s) :
    s.allowance k ≤ allowed k cubes := by
  refine hr.invariant' (fun s => s.allowance k ≤ allowed k cubes) ?_ ?_
  · show (0 : ℤ) + 0 + allowed k cubes + 0 ≤ _
    omega
  · intro s act s' hr hle hg hs
    have hfresh := fun x => @System.fresh x s (System.listed_le hr.reachable x)
    refine le_trans ?_ hle
    cases System.move_of_step hs with
    | solve hp =>
        have heq := hp.allowance (k := k) fun x hx => hfresh x (.inl hx)
        exact add_le_add_left heq.le _
    | getTask w => simp [System.allowance, System.total, Handler.allowed]
    | submitResult r => simp [System.allowance, System.total, Handler.allowed, SubmitResult.allowed]
    | @handler pre h post server h' c heq hm =>
        have hmem : h ∈ s.handlers := by simp [heq]
        have hlocal := hm.allowance (k := k) (fun x hx => hfresh x (.inr ⟨h, hmem, hx⟩))
          fun r cube hh => hg pre.length c r cube rfl (by simp [heq, hh])
        simp only [System.allowance, System.total, heq, List.map_append, List.map_cons,
          List.sum_append, List.sum_cons]
        linarith

theorem length_of_mem_initialRounds {order : ℕ → List (ℤ × ℕ)} {r : ℕ} {cube : Cube}
    (h : cube ∈ initialRounds order r) : cube.length = r := by
  induction r generalizing cube with
  | zero =>
      rw [List.mem_singleton.mp h]
      rfl
  | succ r ih =>
      obtain ⟨ci, hci, hchild⟩ := List.mem_flatMap.mp h
      have hparent := ih (List.fst_mem_of_mem_zipIdx hci)
      simp only [splitCubeSmart, List.mem_cons, List.not_mem_nil, or_false] at hchild
      rcases hchild with rfl | rfl <;> rw [List.length_append, hparent, List.length_singleton]

theorem length_splitRound (order : ℕ → List (ℤ × ℕ)) (i : ℕ) (cubes : List Cube) :
    (splitRound order i cubes).length = 2 * cubes.length := by
  induction cubes generalizing i with
  | nil => rfl
  | cons cube cubes ih =>
      show (splitCubeSmart cube (order i) ++ splitRound order (i + 1) cubes).length = _
      rw [List.length_append, ih (i + 1)]
      show 2 + 2 * cubes.length = 2 * (cubes.length + 1)
      omega

/-- The 64 cubes of `main` have six literals each. -/
theorem allowed_initialCubes (hk : 6 ≤ k) (order : ℕ → List (ℤ × ℕ)) :
    allowed k (initialCubes order) = 2 ^ (k + 1) - 64 := by
  have hlen : (initialCubes order).length = 64 := by
    simp only [initialCubes, initialRounds, length_splitRound]
    rfl
  have hone : (initialCubes order).map (fun c => descendants k c + 1) =
      List.replicate 64 (2 ^ (k - 6 + 1) - 1) := by
    refine List.eq_replicate_iff.mpr ⟨by rw [List.length_map, hlen], fun x hx => ?_⟩
    obtain ⟨cube, hcube, rfl⟩ := List.mem_map.mp hx
    rw [descendants, length_of_mem_initialRounds hcube]
    ring
  rw [allowed, hone, List.sum_replicate, nsmul_eq_mul]
  obtain ⟨d, rfl⟩ := Nat.exists_eq_add_of_le hk
  rw [show 6 + d - 6 + 1 = d + 1 by omega, show 6 + d + 1 = d + 1 + 6 by omega, pow_add 2 (d + 1) 6]
  push_cast
  ring

/-- What is queued or was handed out has an id of its own. -/
theorem System.sent_le_nextID (hr : Reachable System.step (.init cfg workers cnf cubes) s) :
    ((s.server.history.handedOut.length + s.server.taskManager.taskQueue.length : ℕ) : ℤ) ≤
      s.server.taskManager.nextID := by
  have hsub : (s.server.history.handedOut ++ s.server.taskManager.taskQueue.map (·.taskId)).Subperm
      s.server.taskManager.issuedIds := by
    refine List.subperm_iff_count.mpr fun x => ?_
    have hsent := System.sent_eq hr x
    have hothers : 0 ≤ (s.handlers.map fun h => (h.call.unsent.count x : ℤ)).sum :=
      List.sum_nonneg fun n hn => by
        obtain ⟨h, -, rfl⟩ := List.mem_map.mp hn
        exact Int.natCast_nonneg _
    rw [List.count_append, TaskManager.count_issuedIds]
    simp only [System.total, MasterServer.misplaced, MasterServer.sent] at hsent
    omega
  have hlen := hsub.length_le
  have hpos := System.nextID_nonneg hr
  rw [List.length_append, List.length_map] at hlen
  simp only [TaskManager.issuedIds, List.length_map, List.length_range] at hlen
  omega

/-- **A problem takes a bounded number of tasks.**  If no cube of `k` or more literals is split, `main`'s
64 cubes lead to at most `2 ^ (k + 1) - 64` tasks, in every interleaving and for every pattern of timeouts;
each has an id of its own, and as many are queued or handed out at most. -/
theorem System.tasks_bounded {order : ℕ → List (ℤ × ℕ)} (hk : 6 ≤ k)
    (hr : Reaches System.step (System.ShallowAt k) (.init cfg workers cnf (initialCubes order)) s) :
    ((s.server.history.handedOut.length + s.server.taskManager.taskQueue.length : ℕ) : ℤ) ≤
        s.server.taskManager.nextID ∧
      s.server.taskManager.nextID ≤ 2 ^ (k + 1) - 64 := by
  refine ⟨System.sent_le_nextID hr.reachable, ?_⟩
  have hle := System.allowance_le hr
  have hserver := s.server.taskManager.descendants_nonneg (k := k)
  have hsolve := s.solve.allowed_nonneg (k := k)
  have hhandlers : 0 ≤ (s.handlers.map fun h => h.allowed k).sum := List.sum_nonneg fun n hn => by
    obtain ⟨h, -, rfl⟩ := List.mem_map.mp hn
    exact h.allowed_nonneg
  rw [allowed_initialCubes hk] at hle
  simp only [System.allowance, System.total, MasterServer.allowance] at hle
  omega

end Runs

/-- `ShallowAt`, evaluated. -/
def System.shallowCheck (k : ℕ) (s : System) : Action → Bool
  | .handler i _ =>
      match s.handlers[i]? with
      | some (.submitResult (.split _ cube)) => decide (cube.length < k)
      | _ => true
  | _ => true

theorem System.shallow_of_check {s : System} {act : Action} (h : s.shallowCheck k act = true) :
    s.ShallowAt k act := by
  rintro i c r cube rfl hi
  simp only [System.shallowCheck, hi, decide_eq_true_eq] at h
  exact h

/-- The cubes of `main`; the first task runs into its timeout and is split. -/
def firstSplits : List Action :=
  [List.replicate 259 .solve, [.getTask workerA], List.replicate 6 (.handler 0 .go),
    [.submitResult (timeoutAnswer 1)], List.replicate 4 (.handler 1 .go),
    [.handler 1 (.visit (freqTable sevenVars.clauses))], List.replicate 10 (.handler 1 .go)].flatten

theorem System.tasks_bounded_firstSplits : ∃ s : System, s.server.taskManager.nextID = 66 ∧
    ((s.server.history.handedOut.length + s.server.taskManager.taskQueue.length : ℕ) : ℤ) ≤
      s.server.taskManager.nextID ∧ s.server.taskManager.nextID ≤ 2 ^ 8 - 64 := by
  have hrun : (exec (fun s a => if System.shallowCheck 7 s a then System.step s a else none)
      sevenVarsInit firstSplits).map (fun s => s.server.taskManager.nextID) = some 66 := by
    decide +kernel
  obtain ⟨s, hs, hid⟩ := Option.map_eq_some_iff.mp hrun
  have hr := Reaches.of_exec_checked (fun _ _ => System.shallow_of_check) hs
  exact ⟨s, hid, System.tasks_bounded (by decide) hr⟩

end HydraSAT.Master
