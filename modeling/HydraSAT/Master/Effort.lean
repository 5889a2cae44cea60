import HydraSAT.Master.WorkBound

/-!
# What is left to do

Every atomic step takes a unit out of what is left to do, wherever that is: in the queue, in the checkbook,
with a running handler or with `Solve`.  A task in the checkbook has room for its result and, if it may
still be split, for its children.  Only a `GetTask` that ends without a task adds to it.

* `effort`: what a task costs that may be split so many levels deep;
* `HandlerMove.effort`, `SolveMove.effort`: what a step does to it.
-/

namespace HydraSAT.Master

open HydraSAT.Lib

/-- What is left of an outstanding task with `m` literals to go. -/
def effort : ℕ → ℕ
  | 0 => 10
  | m + 1 => 41 + 2 * effort m

theorem effort_add (m : ℕ) : effort m + 41 = 51 * 2 ^ m := by
  induction m with
  | zero => rfl
  | succ m ih =>
      rw [effort, pow_succ]
      omega

theorem le_effort (m : ℕ) : 10 ≤ effort m := by
  cases m with
  | zero => exact le_refl 10
  | succ m =>
      rw [effort]
      omega

variable {k : ℕ}

/-- What some cubes cost that have no task yet. -/
def toEnqueue (k : ℕ) (cubes : List Cube) : ℕ := (cubes.map fun c => effort (k - c.length) + 17).sum

theorem toEnqueue_cons (cube : Cube) (cubes : List Cube) :
    toEnqueue k (cube :: cubes) = effort (k - cube.length) + 17 + toEnqueue k cubes := by
  rw [toEnqueue, List.map_cons, List.sum_cons]
  rfl

/-- **The children of a cube** cost what is set aside for them. -/
theorem toEnqueue_split {cube : Cube} (hk : cube.length < k) (entries : List (ℤ × ℕ)) :
    toEnqueue k (splitCubeSmart cube entries) + 7 = effort (k - cube.length) := by
  have hchild : ∀ l : ℤ, k - (cube ++ [l]).length = k - cube.length - 1 := by
    intro l
    rw [List.length_append, List.length_singleton]
    omega
  obtain ⟨m, hm⟩ : ∃ m, k - cube.length = m + 1 := ⟨k - cube.length - 1, by omega⟩
  rw [splitCubeSmart, toEnqueue_cons, toEnqueue_cons, hchild, hchild, hm]
  show effort m + 17 + (effort m + 17 + 0) + 7 = 41 + 2 * effort m
  omega

/-! ### Where it is -/

def EnqueueCubes.effort (k : ℕ) : EnqueueCubes → ℕ
  | .loop rest => toEnqueue k rest
  | .insert _ cube rest => Master.effort (k - cube.length) + 16 + toEnqueue k rest
  | .activate _ _ rest => 15 + toEnqueue k rest
  | .send _ rest => 14 + toEnqueue k rest

/-- The rest of a `GetTask` call and of what its worker does with the reply. -/
def GetTask.effort : GetTask → ℕ
  | .register _ => 3
  | .checkCap _ => 2
  | .select _ => 1
  | .stamp _ _ => 13
  | .record _ _ => 12
  | .assign _ _ => 11
  | .setIdle _ => 7
  | .returned (some task) => if task.taskId = -1 then 6 else 10
  | .returned none => 6

/-- The rest of a `SubmitResult` call, of the tasks that come from it, and of what its worker does
then. -/
def SubmitResult.effort (k : ℕ) : SubmitResult → ℕ
  | .remove _ => 7
  | .release _ _ cube => Master.effort (k - cube.length) + 6
  | .updateWorker _ _ cube => Master.effort (k - cube.length) + 5
  | .countTimeout _ cube => Master.effort (k - cube.length) + 4
  | .split _ cube => Master.effort (k - cube.length) + 3
  | .enqueue _ _ _ e => 9 + e.effort k
  | .addCount _ _ _ => 14
  | .readTimeout _ => 13
  | .recordCompletion _ _ => 12
  | .rereadTimeout _ _ => 11
  | .broadcast _ _ => 10
  | .countCompleted _ => 9
  | .readActive _ => 8
  | .readQueue _ => 7
  | .announce _ => 6
  | .returned true => 5
  | .returned false => 6

def Handler.effort (k : ℕ) : Handler → ℕ
  | .getTask g => g.effort
  | .submitResult g => g.effort k

def Solve.effort (k : ℕ) : Solve → ℕ
  | .broadcast cubes => 5 + toEnqueue k cubes
  | .countTotal cubes => 4 + toEnqueue k cubes
  | .load e => 3 + e.effort k
  | .wait => 2
  | .logResult => 1
  | .returned _ => 0

/-- The tasks on the queue, and in the checkbook. -/
def TaskManager.effort (k : ℕ) (tm : TaskManager) : ℕ :=
  13 * tm.taskQueue.length + (tm.outstanding.map fun c => Master.effort (k - c.length)).sum

/-- One if the `GetTask` call has no task for its worker. -/
def Handler.idles : Handler → ℕ
  | .getTask (.setIdle _) => 1
  | .getTask (.returned (some task)) => if task.taskId = -1 then 1 else 0
  | .getTask (.returned none) => 1
  | _ => 0

/-! ### Steps -/

theorem TaskManager.effort_enter {tm : TaskManager} {id : ℤ} (cube : Cube) (hfresh : id ∉ tm.checkbook) :
    (tm.enter id cube).effort k = Master.effort (k - cube.length) + tm.effort k := by
  show 13 * tm.taskQueue.length +
    (((tm.checkbook.insert id ⟨cube, ""⟩).entries.map _).map _).sum = _
  rw [List.map_map, sum_insert _ hfresh, TaskManager.effort, TaskManager.outstanding, List.map_map]
  show _ + (Master.effort (k - cube.length) + _) = _
  rw [Nat.add_left_comm]

theorem TaskManager.effort_deleteTask {tm : TaskManager} {id : ℤ} {entry : TaskEntry}
    (hl : tm.checkbook.lookup id = some entry) :
    tm.effort k = Master.effort (k - entry.cube.length) + (tm.deleteTask id).effort k := by
  have hdel : (tm.deleteTask id).outstanding =
      (tm.checkbook.erase id).entries.map fun e => e.2.cube := by
    unfold TaskManager.deleteTask
    rw [hl]
    rfl
  rw [TaskManager.effort, TaskManager.effort, hdel, TaskManager.taskQueue_deleteTask,
    TaskManager.outstanding, List.map_map, List.map_map, sum_erase _ hl]
  exact Nat.add_left_comm _ _ _

theorem TaskManager.effort_recordAssignment (tm : TaskManager) (id : ℤ) (hostname : String) :
    (tm.recordAssignment id hostname).effort k = tm.effort k := by
  unfold TaskManager.recordAssignment
  split
  · rename_i e he
    simp only [TaskManager.effort, TaskManager.outstanding, List.map_map]
    exact congrArg _ (sum_overwrite _ he rfl)
  · rfl

/-- **A step of `EnqueueCubes`** takes one, and hands the rest to the checkbook or to the queue. -/
theorem enqueueStep_effort {tm tm' : TaskManager} {e e' : EnqueueCubes}
    (hfresh : ∀ x ∈ e.drawn, x ∉ tm.checkbook) (h : enqueueStep tm e = some (tm', e')) :
    tm'.effort k + e'.effort k + 1 ≤ tm.effort k + e.effort k := by
  rcases enqueueStep_cases h with ⟨cube, rest, rfl, rfl, rfl⟩ | ⟨id, cube, rest, rfl, -, rfl, rfl⟩ |
    ⟨id, cube, rest, rfl, rfl, rfl⟩ | ⟨task, rest, rfl, -, rfl, rfl⟩
  · show tm.effort k + (Master.effort (k - cube.length) + 16 + toEnqueue k rest) + 1 ≤
      tm.effort k + toEnqueue k (cube :: rest)
    rw [toEnqueue_cons]
    omega
  · show (tm.enter id cube).effort k + (15 + toEnqueue k rest) + 1 ≤
      tm.effort k + (Master.effort (k - cube.length) + 16 + toEnqueue k rest)
    rw [TaskManager.effort_enter cube (hfresh id (by simp [EnqueueCubes.drawn]))]
    omega
  · show tm.effort k + (14 + toEnqueue k rest) + 1 ≤ tm.effort k + (15 + toEnqueue k rest)
    omega
  · show 13 * (tm.taskQueue ++ [task]).length + _ + toEnqueue k rest + 1 ≤
      13 * tm.taskQueue.length + _ + (14 + toEnqueue k rest)
    rw [List.length_append, List.length_singleton]
    show 13 * (tm.taskQueue.length + 1) + (tm.outstanding.map _).sum + toEnqueue k rest + 1 ≤ _
    omega

/-- A `GetTask` call ends its wait for a task, or does not begin it. -/
inductive GivesUp (s : MasterServer) : Handler → Handler → Prop
  | capped (w h') : s.capReached = true → GivesUp s (.getTask (.checkCap w)) h'
  | timer (w) : GivesUp s (.getTask (.select w)) (.getTask (.setIdle w))
  | cancelled (w) : GivesUp s (.getTask (.select w)) (.getTask (.returned none))

/-- **A step of a handler** takes one, unless the handler gives up, which is paid for with seven. -/
theorem HandlerMove.effort {s s' : MasterServer} {h h' : Handler} (hm : HandlerMove s h s' h')
    (hfresh : ∀ x ∈ h.call.drawn, x ∉ s.taskManager.checkbook)
    (hsplit : ∀ r cube, h = .submitResult (.split r cube) → cube.length < k) :
    (s'.taskManager.effort k + h'.effort k + 1 ≤ s.taskManager.effort k + h.effort k ∧
        h.idles ≤ h'.idles) ∨
      (GivesUp s h h' ∧ h'.idles = h.idles + 1 ∧
        s'.taskManager.effort k + h'.effort k + 1 ≤ s.taskManager.effort k + h.effort k + 7) := by
  cases hm with
  | getTask hg =>
      cases hg with
      | capped w hcap =>
          refine .inr ⟨.capped w _ hcap, rfl, ?_⟩
          show s.taskManager.effort k + 6 + 1 ≤ s.taskManager.effort k + 2 + 7
          omega
      | after5s w => exact .inr ⟨.timer w, rfl, le_refl _⟩
      | ctxDone w =>
          refine .inr ⟨.cancelled w, rfl, ?_⟩
          show s.taskManager.effort k + 6 + 1 ≤ s.taskManager.effort k + 1 + 7
          omega
      | dequeue w task rest hq =>
          refine .inl ⟨?_, le_refl _⟩
          have hlen : s.taskManager.taskQueue.length = rest.length + 1 := by rw [hq, List.length_cons]
          show 13 * rest.length + (s.taskManager.outstanding.map _).sum + 13 + 1 ≤
            13 * s.taskManager.taskQueue.length + (s.taskManager.outstanding.map _).sum + 1
          omega
      | record w task _ =>
          refine .inl ⟨?_, le_refl _⟩
          show (s.taskManager.recordAssignment task.taskId w.hostname).effort k + 11 + 1 ≤
            s.taskManager.effort k + 12
          rw [TaskManager.effort_recordAssignment]
      | assign w task =>
          refine .inl ⟨?_, Nat.zero_le _⟩
          show s.taskManager.effort k + (if task.taskId = -1 then 6 else 10) + 1 ≤
            s.taskManager.effort k + 11
          split <;> omega
      | _ => exact .inl ⟨le_refl _, le_refl _⟩
  | submitResult hm =>
      have hplain : ∀ {n n' : ℕ}, n' + 1 ≤ n →
          s.taskManager.effort k + n' + 1 ≤ s.taskManager.effort k + n := fun hn =>
        Nat.add_le_add_left hn _
      refine .inl ⟨?_, Nat.zero_le _⟩
      cases hm with
      | accept r entry _ hl =>
          have hdel := TaskManager.effort_deleteTask (k := k) hl
          show (s.taskManager.deleteTask r.taskId).effort k +
            (Master.effort (k - entry.cube.length) + 6) + 1 ≤ s.taskManager.effort k + 7
          omega
      | parsed r hostname cube val _ _ =>
          have hle := le_effort (k - cube.length)
          exact hplain (show 14 + 1 ≤ Master.effort (k - cube.length) + 5 by omega)
      | unparsed r hostname cube _ _ =>
          have hle := le_effort (k - cube.length)
          exact hplain (show 9 + 1 ≤ Master.effort (k - cube.length) + 5 by omega)
      | split r cube entries _ =>
          have hchildren := toEnqueue_split (hsplit r cube rfl) entries
          exact hplain (show 9 + toEnqueue k (splitCubeSmart cube entries) + 1 ≤
            Master.effort (k - cube.length) + 3 by omega)
      | enqueue r cube newCubes e tm' e' he =>
          have hstep : tm'.effort k + e'.effort k + 1 ≤ s.taskManager.effort k + e.effort k :=
            enqueueStep_effort hfresh he
          show tm'.effort k + (9 + e'.effort k) + 1 ≤ s.taskManager.effort k + (9 + e.effort k)
          omega
      | addMeasured r cube val _ => exact hplain (by decide : 13 + 1 ≤ 14)
      | addUnmeasured r cube val _ => exact hplain (by decide : 9 + 1 ≤ 14)
      | unchanged r old _ => exact hplain (by decide : 9 + 1 ≤ 11)
      | someActive r _ => exact hplain (by decide : 5 + 1 ≤ 8)
      | someQueued r _ => exact hplain (by decide : 5 + 1 ≤ 7)
      | _ => exact hplain (le_refl _)

/-- **A step of `Solve`** takes one. -/
theorem SolveMove.effort {s s' : MasterServer} {p p' : Solve} (hm : SolveMove s p s' p')
    (hfresh : ∀ x ∈ p.call.drawn, x ∉ s.taskManager.checkbook) :
    s'.taskManager.effort k + p'.effort k + 1 ≤ s.taskManager.effort k + p.effort k := by
  cases hm with
  | load e tm' e' he =>
      have hstep : tm'.effort k + e'.effort k + 1 ≤ s.taskManager.effort k + e.effort k :=
        enqueueStep_effort hfresh he
      show tm'.effort k + (3 + e'.effort k) + 1 ≤ s.taskManager.effort k + (3 + e.effort k)
      omega
  | countTotal cubes =>
      show s.taskManager.effort k + (3 + toEnqueue k cubes) + 1 ≤
        s.taskManager.effort k + (4 + toEnqueue k cubes)
      omega
  | broadcast cubes =>
      show s.taskManager.effort k + (4 + toEnqueue k cubes) + 1 ≤
        s.taskManager.effort k + (5 + toEnqueue k cubes)
      omega
  | loaded => exact le_refl _
  | receive _ => exact le_refl _
  | logResult => exact le_refl _

/-! ### Which cubes are split -/

section Runs

variable {cfg : HeuristicConfig} {workers : WorkerTracker} {cnf : CNFData} {cubes : List Cube}
  {s : System}

/-- No task of `k` or more literals times out. -/
def System.TimesOutAt (k : ℕ) (s : System) (act : Action) : Prop :=
  ∀ i c r entry, act = .handler i c → s.handlers[i]? = some (.submitResult (.remove r)) →
    s.server.taskManager.checkbook.lookup r.taskId = some entry → r.timedOut = true →
      entry.cube.length < k

/-- What the handler is going to split has less than `k` literals. -/
def Handler.Shallow (k : ℕ) : Handler → Prop
  | .submitResult (.release r _ cube) => r.timedOut = true → cube.length < k
  | .submitResult (.updateWorker r _ cube) => r.timedOut = true → cube.length < k
  | .submitResult (.countTimeout _ cube) => cube.length < k
  | .submitResult (.split _ cube) => cube.length < k
  | _ => True

theorem System.shallow
    (hr : Reaches System.step (System.TimesOutAt k) (.init cfg workers cnf cubes) s) :
    ∀ h ∈ s.handlers, h.Shallow k := by
  refine hr.invariant (fun s => ∀ h ∈ s.handlers, h.Shallow k)
    (fun h hh => absurd hh List.not_mem_nil) ?_
  intro s act s' hall hg hs
  refine System.handlers_step hs (fun _ => trivial) (fun _ => trivial) ?_ hall
  intro i c h server h' hact hi hshallow hm
  cases hm with
  | getTask hg => trivial
  | submitResult hm =>
      cases hm with
      | accept r entry _ hl => exact hg i c r entry hact hi hl
      | release r hostname cube => exact hshallow
      | timedOut r hostname cube hto => exact hshallow hto
      | countTimeout r cube => exact hshallow
      | _ => trivial

end Runs

/-- What the cubes of `main` cost. -/
theorem toEnqueue_initialCubes (hk : 6 ≤ k) (order : ℕ → List (ℤ × ℕ)) :
    toEnqueue k (initialCubes order) + 1536 = 51 * 2 ^ k := by
  have hlen : (initialCubes order).length = 64 := by
    simp only [initialCubes, initialRounds, length_splitRound]
    rfl
  have hone : (initialCubes order).map (fun c => effort (k - c.length) + 17) =
      List.replicate 64 (effort (k - 6) + 17) := by
    refine List.eq_replicate_iff.mpr ⟨by rw [List.length_map, hlen], fun x hx => ?_⟩
    obtain ⟨cube, hcube, rfl⟩ := List.mem_map.mp hx
    rw [length_of_mem_initialRounds hcube]
  have heffort := effort_add (k - 6)
  have hpow : 2 ^ k = 2 ^ (k - 6) * 64 := by
    rw [show (64 : ℕ) = 2 ^ 6 by decide, ← pow_add, Nat.sub_add_cancel hk]
  rw [toEnqueue, hone, List.sum_replicate, smul_eq_mul, hpow]
  omega

end HydraSAT.Master
