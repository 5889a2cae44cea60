import HydraSAT.Lib.Decimal
import HydraSAT.Lib.Pool
import HydraSAT.Lib.Transition
import HydraSAT.Master.TaskManager
import HydraSAT.Master.Trackers

/-!
# The master while it solves one problem

`server.go`: the handlers `GetTask` and `SubmitResult`, any number of them at a time, and `Solve`
from the point where it has installed the fresh per-problem state.  Each of them is its sequence
of atomic steps; its control point carries the local variables that are still needed.

* `MasterServer` is what the handlers share, with the variables of the history at the end: which
  ids went out, which results were accepted, which counts were added;
* `GetTask.step`, `SubmitResult.step` and `Solve.step` are the code, one atomic step at a time, and
  `System.step` interleaves them;
* `GetTaskMove`, `SubmitMove` and `SolveMove` list what those steps can do, with their guards.
  Everything proved about runs is proved by cases on these.

While one problem is being solved the snapshot of `s.taskManager`, `s.timeoutTracker` and `s.done`
that a handler takes is the one `Solve` installed, so it is no step here.
-/

namespace HydraSAT.Master

open HydraSAT.Lib

/-- The identity a worker sends with `GetTask`. -/
structure WorkerIdentity where
  workerId : String
  hostname : String
  deriving DecidableEq

/-- The result a worker sends with `SubmitResult`. -/
structure TaskResult where
  taskId : ℤ
  workerId : String
  count : String
  durationSec : ℚ
  timedOut : Bool
  deriving DecidableEq

/-- What has happened so far; no step reads it. -/
structure History where
  /-- Ids received from the queue by `GetTask`, in order. -/
  handedOut : List ℤ
  /-- Results whose task `GetAndRemoveTask` found and removed. -/
  accepted : List TaskResult
  /-- Ids, cubes and values of the counts added to `totalCount`. -/
  counted : List (ℤ × Cube × ℤ)

structure MasterServer where
  cfg : HeuristicConfig
  taskManager : TaskManager
  timeoutTracker : TimeoutTracker
  workerTracker : WorkerTracker
  totalCount : ℤ
  /-- The one slot of the channel `s.done`. -/
  done : Bool
  completedTasks : ℤ
  timedOutTasks : ℤ
  totalTasks : ℤ
  /-- The values passed to `Broadcast`, oldest first. -/
  broadcasts : List ℤ
  history : History

/-- How a step with several outcomes goes on. -/
inductive Choice
  /-- The only way, or the receive case of the `select`. -/
  | go
  /-- The five-second timer of the `select`. -/
  | after5s
  /-- The cancelled context of the `select`. -/
  | ctxDone
  /-- The order in which `range freq` visits the table. -/
  | visit (entries : List (ℤ × ℕ))
  deriving DecidableEq

/-! ### GetTask -/

/-- Control points of a `GetTask` handler. -/
inductive GetTask
  | register (w : WorkerIdentity)
  | checkCap (w : WorkerIdentity)
  | select (w : WorkerIdentity)
  | stamp (w : WorkerIdentity) (task : TaskPayload)
  | record (w : WorkerIdentity) (task : TaskPayload)
  | assign (w : WorkerIdentity) (task : TaskPayload)
  | setIdle (w : WorkerIdentity)
  /-- `none` is the error of a cancelled context. -/
  | returned (reply : Option TaskPayload)

/-- `&pb.TaskPayload{TaskId: -1}`. -/
def noTask : TaskPayload :=
  { taskId := -1, numVars := 0, numClauses := 0, formulaBody := "", literals := [], timeoutSec := 0 }

/-- The `MaxWorkers` cap is reached. -/
def MasterServer.capReached (s : MasterServer) : Bool :=
  decide (0 < s.cfg.maxWorkers) && decide (s.cfg.maxWorkers ≤ s.workerTracker.busyWorkerCount)

/-- `task := <-tm.TaskQueue()`, with the queue behind it. -/
def MasterServer.dequeue (s : MasterServer) (task : TaskPayload) (rest : List TaskPayload) :
    MasterServer :=
  { s with
    taskManager := { s.taskManager with taskQueue := rest }
    history := { s.history with handedOut := s.history.handedOut ++ [task.taskId] } }

/-- One atomic step of `GetTask`. -/
def GetTask.step (s : MasterServer) : GetTask → Choice → Option (MasterServer × GetTask)
  | .register w, _ =>
      some ({ s with workerTracker := s.workerTracker.registerWorker w.workerId w.hostname },
        .checkCap w)
  | .checkCap w, _ => some (s, if s.capReached then .returned (some noTask) else .select w)
  | .select w, .go =>
      match s.taskManager.taskQueue with
      | [] => none
      | task :: rest => some (s.dequeue task rest, .stamp w task)
  | .select w, .after5s => some (s, .setIdle w)
  | .select _, .ctxDone => some (s, .returned none)
  | .select _, .visit _ => none
  | .stamp w task, _ =>
      some (s, .record w { task with timeoutSec := s.timeoutTracker.currentTimeoutSec s.cfg })
  | .record w task, _ =>
      if s.taskManager.mu then none
      else some ({ s with
        taskManager := s.taskManager.recordAssignment task.taskId w.hostname }, .assign w task)
  | .assign w task, _ =>
      some ({ s with
        workerTracker := s.workerTracker.assignTask w.workerId w.hostname task.taskId task.literals
          task.timeoutSec }, .returned (some task))
  | .setIdle w, _ =>
      some ({ s with workerTracker := s.workerTracker.setIdle w.workerId w.hostname },
        .returned (some noTask))
  | .returned _, _ => none

/-- The moves of `GetTask`. -/
inductive GetTaskMove (s : MasterServer) : GetTask → MasterServer → GetTask → Prop
  | register (w) : GetTaskMove s (.register w)
      { s with workerTracker := s.workerTracker.registerWorker w.workerId w.hostname } (.checkCap w)
  | capped (w) : s.capReached = true → GetTaskMove s (.checkCap w) s (.returned (some noTask))
  | uncapped (w) : s.capReached = false → GetTaskMove s (.checkCap w) s (.select w)
  | dequeue (w task rest) : s.taskManager.taskQueue = task :: rest →
      GetTaskMove s (.select w) (s.dequeue task rest) (.stamp w task)
  | after5s (w) : GetTaskMove s (.select w) s (.setIdle w)
  | ctxDone (w) : GetTaskMove s (.select w) s (.returned none)
  | stamp (w task) : GetTaskMove s (.stamp w task) s
      (.record w { task with timeoutSec := s.timeoutTracker.currentTimeoutSec s.cfg })
  | record (w task) : s.taskManager.mu = false → GetTaskMove s (.record w task)
      { s with taskManager := s.taskManager.recordAssignment task.taskId w.hostname }
      (.assign w task)
  | assign (w task) : GetTaskMove s (.assign w task)
      { s with
        workerTracker := s.workerTracker.assignTask w.workerId w.hostname task.taskId task.literals
          task.timeoutSec } (.returned (some task))
  | setIdle (w) : GetTaskMove s (.setIdle w)
      { s with workerTracker := s.workerTracker.setIdle w.workerId w.hostname }
      (.returned (some noTask))

theorem GetTask.move_of_step {s s' : MasterServer} {h h' : GetTask} {c : Choice}
    (hs : GetTask.step s h c = some (s', h')) : GetTaskMove s h s' h' := by
  cases h with
  | register w =>
      obtain ⟨rfl, rfl⟩ := Prod.mk.inj (Option.some.inj hs)
      exact .register w
  | checkCap w =>
      obtain ⟨rfl, rfl⟩ := Prod.mk.inj (Option.some.inj hs)
      by_cases hcap : s.capReached = true
      · rw [if_pos hcap]
        exact .capped w hcap
      · rw [if_neg hcap]
        exact .uncapped w (by simpa using hcap)
  | select w =>
      cases c with
      | go =>
          simp only [GetTask.step] at hs
          split at hs
          · simp at hs
          · rename_i task rest hq
            obtain ⟨rfl, rfl⟩ := Prod.mk.inj (Option.some.inj hs)
            exact .dequeue w task rest hq
      | after5s =>
          obtain ⟨rfl, rfl⟩ := Prod.mk.inj (Option.some.inj hs)
          exact .after5s w
      | ctxDone =>
          obtain ⟨rfl, rfl⟩ := Prod.mk.inj (Option.some.inj hs)
          exact .ctxDone w
      | visit entries => simp [GetTask.step] at hs
  | stamp w task =>
      obtain ⟨rfl, rfl⟩ := Prod.mk.inj (Option.some.inj hs)
      exact .stamp w task
  | record w task =>
      simp only [GetTask.step] at hs
      split at hs
      · simp at hs
      · rename_i hmu
        obtain ⟨rfl, rfl⟩ := Prod.mk.inj (Option.some.inj hs)
        exact .record w task (by simpa using hmu)
  | assign w task =>
      obtain ⟨rfl, rfl⟩ := Prod.mk.inj (Option.some.inj hs)
      exact .assign w task
  | setIdle w =>
      obtain ⟨rfl, rfl⟩ := Prod.mk.inj (Option.some.inj hs)
      exact .setIdle w
  | returned reply => simp [GetTask.step] at hs

/-! ### SubmitResult -/

/-- Control points of a `SubmitResult` handler. -/
inductive SubmitResult
  | remove (r : TaskResult)
  | release (r : TaskResult) (hostname : String) (cube : Cube)
  | updateWorker (r : TaskResult) (hostname : String) (cube : Cube)
  | countTimeout (r : TaskResult) (cube : Cube)
  | split (r : TaskResult) (cube : Cube)
  | enqueue (r : TaskResult) (cube : Cube) (newCubes : List Cube) (e : EnqueueCubes)
  | addCount (r : TaskResult) (cube : Cube) (val : ℤ)
  | readTimeout (r : TaskResult)
  | recordCompletion (r : TaskResult) (oldTimeout : ℤ)
  | rereadTimeout (r : TaskResult) (oldTimeout : ℤ)
  | broadcast (r : TaskResult) (newTimeout : ℤ)
  | countCompleted (r : TaskResult)
  | readActive (r : TaskResult)
  | readQueue (r : TaskResult)
  | announce (r : TaskResult)
  /-- `false` is the error for an unknown task id. -/
  | returned (ok : Bool)

/-- The call of `UpdateWorkerResult`. -/
def MasterServer.updateWorker (s : MasterServer) (r : TaskResult) (hostname : String) :
    MasterServer :=
  { s with workerTracker := s.workerTracker.updateWorkerResult r.workerId hostname r.timedOut }

/-- Where an accepted result goes once the worker table is updated. -/
def SubmitResult.settle (r : TaskResult) (cube : Cube) : SubmitResult :=
  if r.timedOut then .countTimeout r cube
  else match setString10 r.count with
    | some val => .addCount r cube val
    | none => .countCompleted r

/-- `s.totalCount.Add(s.totalCount, val)`. -/
def MasterServer.addCount (s : MasterServer) (r : TaskResult) (cube : Cube) (val : ℤ) :
    MasterServer :=
  { s with
    totalCount := s.totalCount + val
    history := { s.history with counted := s.history.counted ++ [(r.taskId, cube, val)] } }

/-- The deletion in `GetAndRemoveTask`. -/
def MasterServer.accept (s : MasterServer) (r : TaskResult) : MasterServer :=
  { s with
    taskManager := s.taskManager.deleteTask r.taskId
    history := { s.history with accepted := s.history.accepted ++ [r] } }

/-- One atomic step of `SubmitResult`. -/
def SubmitResult.step (s : MasterServer) : SubmitResult → Choice → Option (MasterServer × SubmitResult)
  | .remove r, _ =>
      if s.taskManager.mu then none
      else match s.taskManager.checkbook.lookup r.taskId with
        | some entry => some (s.accept r, .release r entry.hostname entry.cube)
        | none => some (s, .returned false)
  | .release r hostname cube, _ =>
      some ({ s with taskManager := s.taskManager.releaseTask }, .updateWorker r hostname cube)
  | .updateWorker r hostname cube, _ => some (s.updateWorker r hostname, .settle r cube)
  | .countTimeout r cube, _ =>
      some ({ s with timedOutTasks := int32 (s.timedOutTasks + 1) }, .split r cube)
  | .split r cube, .visit entries =>
      if MapOrder s.taskManager.cnfData.clauses entries then
        some ({ s with totalTasks := int32 (s.totalTasks + (splitCubeSmart cube entries).length) },
          .enqueue r cube (splitCubeSmart cube entries) (.loop (splitCubeSmart cube entries)))
      else none
  | .split _ _, _ => none
  | .enqueue r _ _ (.loop []), _ => some (s, .readActive r)
  | .enqueue r cube newCubes e, _ =>
      (enqueueStep s.taskManager e).map fun p =>
        ({ s with taskManager := p.1 }, .enqueue r cube newCubes p.2)
  | .addCount r cube val, _ =>
      some (s.addCount r cube val,
        if r.count ≠ "0" ∧ 0 < r.durationSec then .readTimeout r else .countCompleted r)
  | .readTimeout r, _ => some (s, .recordCompletion r (s.timeoutTracker.currentTimeoutSec s.cfg))
  | .recordCompletion r oldTimeout, _ =>
      some ({ s with timeoutTracker := s.timeoutTracker.recordCompletion (max r.durationSec 30) },
        .rereadTimeout r oldTimeout)
  | .rereadTimeout r oldTimeout, _ =>
      some (s, if s.timeoutTracker.currentTimeoutSec s.cfg ≠ oldTimeout then
        .broadcast r (s.timeoutTracker.currentTimeoutSec s.cfg) else .countCompleted r)
  | .broadcast r newTimeout, _ =>
      some ({ s with broadcasts := s.broadcasts ++ [newTimeout] }, .countCompleted r)
  | .countCompleted r, _ =>
      some ({ s with completedTasks := int32 (s.completedTasks + 1) }, .readActive r)
  | .readActive r, _ =>
      some (s, if s.taskManager.isEmptyActive then .readQueue r else .returned true)
  | .readQueue r, _ =>
      some (s, if s.taskManager.isEmptyQueue then .announce r else .returned true)
  -- a full slot takes the `default` branch, and stays full
  | .announce _, _ => some ({ s with done := true }, .returned true)
  | .returned _, _ => none

/-- The moves of `SubmitResult`. -/
inductive SubmitMove (s : MasterServer) : SubmitResult → MasterServer → SubmitResult → Prop
  | accept (r entry) : s.taskManager.mu = false →
      s.taskManager.checkbook.lookup r.taskId = some entry →
      SubmitMove s (.remove r) (s.accept r) (.release r entry.hostname entry.cube)
  | reject (r) : s.taskManager.mu = false → s.taskManager.checkbook.lookup r.taskId = none →
      SubmitMove s (.remove r) s (.returned false)
  | release (r hostname cube) : SubmitMove s (.release r hostname cube)
      { s with taskManager := s.taskManager.releaseTask } (.updateWorker r hostname cube)
  | timedOut (r hostname cube) : r.timedOut = true → SubmitMove s (.updateWorker r hostname cube)
      (s.updateWorker r hostname) (.countTimeout r cube)
  | parsed (r hostname cube val) : r.timedOut = false → setString10 r.count = some val →
      SubmitMove s (.updateWorker r hostname cube) (s.updateWorker r hostname) (.addCount r cube val)
  | unparsed (r hostname cube) : r.timedOut = false → setString10 r.count = none →
      SubmitMove s (.updateWorker r hostname cube) (s.updateWorker r hostname) (.countCompleted r)
  | countTimeout (r cube) : SubmitMove s (.countTimeout r cube)
      { s with timedOutTasks := int32 (s.timedOutTasks + 1) } (.split r cube)
  | split (r cube entries) : MapOrder s.taskManager.cnfData.clauses entries →
      SubmitMove s (.split r cube)
        { s with totalTasks := int32 (s.totalTasks + (splitCubeSmart cube entries).length) }
        (.enqueue r cube (splitCubeSmart cube entries) (.loop (splitCubeSmart cube entries)))
  | enqueue (r cube newCubes e tm' e') : enqueueStep s.taskManager e = some (tm', e') →
      SubmitMove s (.enqueue r cube newCubes e) { s with taskManager := tm' }
        (.enqueue r cube newCubes e')
  | enqueued (r cube newCubes) :
      SubmitMove s (.enqueue r cube newCubes (.loop [])) s (.readActive r)
  | addMeasured (r cube val) : r.count ≠ "0" ∧ 0 < r.durationSec →
      SubmitMove s (.addCount r cube val) (s.addCount r cube val) (.readTimeout r)
  | addUnmeasured (r cube val) : ¬(r.count ≠ "0" ∧ 0 < r.durationSec) →
      SubmitMove s (.addCount r cube val) (s.addCount r cube val) (.countCompleted r)
  | readTimeout (r) : SubmitMove s (.readTimeout r) s
      (.recordCompletion r (s.timeoutTracker.currentTimeoutSec s.cfg))
  | recordCompletion (r oldTimeout) : SubmitMove s (.recordCompletion r oldTimeout)
      { s with timeoutTracker := s.timeoutTracker.recordCompletion (max r.durationSec 30) }
      (.rereadTimeout r oldTimeout)
  | changed (r oldTimeout) : s.timeoutTracker.currentTimeoutSec s.cfg ≠ oldTimeout →
      SubmitMove s (.rereadTimeout r oldTimeout) s
        (.broadcast r (s.timeoutTracker.currentTimeoutSec s.cfg))
  | unchanged (r oldTimeout) : s.timeoutTracker.currentTimeoutSec s.cfg = oldTimeout →
      SubmitMove s (.rereadTimeout r oldTimeout) s (.countCompleted r)
  | broadcast (r newTimeout) : SubmitMove s (.broadcast r newTimeout)
      { s with broadcasts := s.broadcasts ++ [newTimeout] } (.countCompleted r)
  | countCompleted (r) : SubmitMove s (.countCompleted r)
      { s with completedTasks := int32 (s.completedTasks + 1) } (.readActive r)
  | noneActive (r) : s.taskManager.isEmptyActive = true →
      SubmitMove s (.readActive r) s (.readQueue r)
  | someActive (r) : s.taskManager.isEmptyActive = false →
      SubmitMove s (.readActive r) s (.returned true)
  | noneQueued (r) : s.taskManager.isEmptyQueue = true →
      SubmitMove s (.readQueue r) s (.announce r)
  | someQueued (r) : s.taskManager.isEmptyQueue = false →
      SubmitMove s (.readQueue r) s (.returned true)
  | announce (r) : SubmitMove s (.announce r) { s with done := true } (.returned true)

theorem SubmitResult.step_enqueue {e : EnqueueCubes} (he : e ≠ .loop []) (s : MasterServer)
    (r : TaskResult) (cube : Cube) (newCubes : List Cube) (c : Choice) :
    SubmitResult.step s (.enqueue r cube newCubes e) c =
      (enqueueStep s.taskManager e).map fun p =>
        ({ s with taskManager := p.1 }, .enqueue r cube newCubes p.2) := by
  cases e with
  | loop rest =>
      cases rest with
      | nil => exact absurd rfl he
      | cons cube rest => rfl
  | insert id cube rest => rfl
  | activate id cube rest => rfl
  | send task rest => rfl

theorem SubmitResult.move_of_step {s s' : MasterServer} {h h' : SubmitResult} {c : Choice}
    (hs : SubmitResult.step s h c = some (s', h')) : SubmitMove s h s' h' := by
  cases h with
  | remove r =>
      simp only [SubmitResult.step] at hs
      split at hs
      · simp at hs
      · rename_i hmu
        split at hs
        · rename_i entry hl
          obtain ⟨rfl, rfl⟩ := Prod.mk.inj (Option.some.inj hs)
          exact .accept r entry (by simpa using hmu) hl
        · rename_i hl
          obtain ⟨rfl, rfl⟩ := Prod.mk.inj (Option.some.inj hs)
          exact .reject r (by simpa using hmu) hl
  | release r hostname cube =>
      obtain ⟨rfl, rfl⟩ := Prod.mk.inj (Option.some.inj hs)
      exact .release r hostname cube
  | updateWorker r hostname cube =>
      obtain ⟨rfl, rfl⟩ := Prod.mk.inj (Option.some.inj hs)
      unfold SubmitResult.settle
      split
      · rename_i hto
        exact .timedOut r hostname cube hto
      · rename_i hto
        split
        · rename_i val hval
          exact .parsed r hostname cube val (by simpa using hto) hval
        · rename_i hval
          exact .unparsed r hostname cube (by simpa using hto) hval
  | countTimeout r cube =>
      obtain ⟨rfl, rfl⟩ := Prod.mk.inj (Option.some.inj hs)
      exact .countTimeout r cube
  | split r cube =>
      cases c with
      | visit entries =>
          simp only [SubmitResult.step] at hs
          split at hs
          · rename_i horder
            obtain ⟨rfl, rfl⟩ := Prod.mk.inj (Option.some.inj hs)
            exact .split r cube entries horder
          · simp at hs
      | go => simp [SubmitResult.step] at hs
      | after5s => simp [SubmitResult.step] at hs
      | ctxDone => simp [SubmitResult.step] at hs
  | enqueue r cube newCubes e =>
      by_cases hfin : e = .loop []
      · subst hfin
        obtain ⟨rfl, rfl⟩ := Prod.mk.inj (Option.some.inj hs)
        exact .enqueued r cube newCubes
      · rw [SubmitResult.step_enqueue hfin, Option.map_eq_some_iff] at hs
        obtain ⟨⟨tm', e'⟩, he, hpair⟩ := hs
        obtain ⟨rfl, rfl⟩ := Prod.mk.inj hpair
        exact .enqueue r cube newCubes e tm' e' he
  | addCount r cube val =>
      obtain ⟨rfl, rfl⟩ := Prod.mk.inj (Option.some.inj hs)
      by_cases hmeas : r.count ≠ "0" ∧ 0 < r.durationSec
      · rw [if_pos hmeas]
        exact .addMeasured r cube val hmeas
      · rw [if_neg hmeas]
        exact .addUnmeasured r cube val hmeas
  | readTimeout r =>
      obtain ⟨rfl, rfl⟩ := Prod.mk.inj (Option.some.inj hs)
      exact .readTimeout r
  | recordCompletion r oldTimeout =>
      obtain ⟨rfl, rfl⟩ := Prod.mk.inj (Option.some.inj hs)
      exact .recordCompletion r oldTimeout
  | rereadTimeout r oldTimeout =>
      obtain ⟨rfl, rfl⟩ := Prod.mk.inj (Option.some.inj hs)
      by_cases hnew : s.timeoutTracker.currentTimeoutSec s.cfg ≠ oldTimeout
      · rw [if_pos hnew]
        exact .changed r oldTimeout hnew
      · rw [if_neg hnew]
        exact .unchanged r oldTimeout (not_not.mp hnew)
  | broadcast r newTimeout =>
      obtain ⟨rfl, rfl⟩ := Prod.mk.inj (Option.some.inj hs)
      exact .broadcast r newTimeout
  | countCompleted r =>
      obtain ⟨rfl, rfl⟩ := Prod.mk.inj (Option.some.inj hs)
      exact .countCompleted r
  | readActive r =>
      obtain ⟨rfl, rfl⟩ := Prod.mk.inj (Option.some.inj hs)
      by_cases hidle : s.taskManager.isEmptyActive = true
      · rw [if_pos hidle]
        exact .noneActive r hidle
      · rw [if_neg hidle]
        exact .someActive r (by simpa using hidle)
  | readQueue r =>
      obtain ⟨rfl, rfl⟩ := Prod.mk.inj (Option.some.inj hs)
      by_cases hempty : s.taskManager.isEmptyQueue = true
      · rw [if_pos hempty]
        exact .noneQueued r hempty
      · rw [if_neg hempty]
        exact .someQueued r (by simpa using hempty)
  | announce r =>
      obtain ⟨rfl, rfl⟩ := Prod.mk.inj (Option.some.inj hs)
      exact .announce r
  | returned ok => simp [SubmitResult.step] at hs

/-! ### Solve -/

/-- Control points of `Solve` after the reset. -/
inductive Solve
  | broadcast (initialCubes : List Cube)
  | countTotal (initialCubes : List Cube)
  | load (e : EnqueueCubes)
  | wait
  | logResult
  | returned (count : ℤ)

/-- One atomic step of `Solve`. -/
def Solve.step (s : MasterServer) : Solve → Option (MasterServer × Solve)
  | .broadcast cubes =>
      some ({ s with broadcasts := s.broadcasts ++ [s.timeoutTracker.currentTimeoutSec s.cfg] },
        .countTotal cubes)
  | .countTotal cubes =>
      some ({ s with totalTasks := int32 (s.totalTasks + cubes.length) }, .load (.loop cubes))
  | .load (.loop []) => some (s, .wait)
  | .load e => (enqueueStep s.taskManager e).map fun p => ({ s with taskManager := p.1 }, .load p.2)
  | .wait => if s.done then some ({ s with done := false }, .logResult) else none
  | .logResult => some (s, .returned s.totalCount)
  | .returned _ => none

/-- The moves of `Solve`. -/
inductive SolveMove (s : MasterServer) : Solve → MasterServer → Solve → Prop
  | broadcast (cubes) : SolveMove s (.broadcast cubes)
      { s with broadcasts := s.broadcasts ++ [s.timeoutTracker.currentTimeoutSec s.cfg] }
      (.countTotal cubes)
  | countTotal (cubes) : SolveMove s (.countTotal cubes)
      { s with totalTasks := int32 (s.totalTasks + cubes.length) } (.load (.loop cubes))
  | load (e tm' e') : enqueueStep s.taskManager e = some (tm', e') →
      SolveMove s (.load e) { s with taskManager := tm' } (.load e')
  | loaded : SolveMove s (.load (.loop [])) s .wait
  | receive : s.done = true → SolveMove s .wait { s with done := false } .logResult
  | logResult : SolveMove s .logResult s (.returned s.totalCount)

theorem Solve.step_load {e : EnqueueCubes} (he : e ≠ .loop []) (s : MasterServer) :
    Solve.step s (.load e) =
      (enqueueStep s.taskManager e).map fun p => ({ s with taskManager := p.1 }, .load p.2) := by
  cases e with
  | loop rest =>
      cases rest with
      | nil => exact absurd rfl he
      | cons cube rest => rfl
  | insert id cube rest => rfl
  | activate id cube rest => rfl
  | send task rest => rfl

theorem Solve.move_of_step {s s' : MasterServer} {p p' : Solve}
    (hs : Solve.step s p = some (s', p')) : SolveMove s p s' p' := by
  cases p with
  | broadcast cubes =>
      obtain ⟨rfl, rfl⟩ := Prod.mk.inj (Option.some.inj hs)
      exact .broadcast cubes
  | countTotal cubes =>
      obtain ⟨rfl, rfl⟩ := Prod.mk.inj (Option.some.inj hs)
      exact .countTotal cubes
  | load e =>
      by_cases hfin : e = .loop []
      · subst hfin
        obtain ⟨rfl, rfl⟩ := Prod.mk.inj (Option.some.inj hs)
        exact .loaded
      · rw [Solve.step_load hfin, Option.map_eq_some_iff] at hs
        obtain ⟨⟨tm', e'⟩, he, hpair⟩ := hs
        obtain ⟨rfl, rfl⟩ := Prod.mk.inj hpair
        exact .load e tm' e' he
  | wait =>
      simp only [Solve.step] at hs
      split at hs
      · rename_i hdone
        obtain ⟨rfl, rfl⟩ := Prod.mk.inj (Option.some.inj hs)
        exact .receive hdone
      · simp at hs
  | logResult =>
      obtain ⟨rfl, rfl⟩ := Prod.mk.inj (Option.some.inj hs)
      exact .logResult
  | returned count => simp [Solve.step] at hs

/-! ### The whole system -/

/-- A running handler. -/
inductive Handler
  | getTask (h : GetTask)
  | submitResult (h : SubmitResult)

/-- One atomic step of a handler. -/
def Handler.step (s : MasterServer) : Handler → Choice → Option (MasterServer × Handler)
  | .getTask h, c => (GetTask.step s h c).map fun p => (p.1, .getTask p.2)
  | .submitResult h, c => (SubmitResult.step s h c).map fun p => (p.1, .submitResult p.2)

/-- The server, `Solve`, and every handler ever started. -/
structure System where
  server : MasterServer
  solve : Solve
  handlers : List Handler

/-- Who moves. -/
inductive Action
  | solve
  /-- A `GetTask` call arrives. -/
  | getTask (w : WorkerIdentity)
  /-- A `SubmitResult` call arrives, with any content. -/
  | submitResult (r : TaskResult)
  | handler (i : ℕ) (c : Choice)

/-- One atomic step of the system. -/
def System.step (s : System) : Action → Option System
  | .solve => (Solve.step s.server s.solve).map fun p => { s with server := p.1, solve := p.2 }
  | .getTask w => some { s with handlers := s.handlers ++ [.getTask (.register w)] }
  | .submitResult r => some { s with handlers := s.handlers ++ [.submitResult (.remove r)] }
  | .handler i c => (stepThread Handler.step s.server s.handlers i c).map fun p =>
      { s with server := p.1, handlers := p.2 }

/-- The state `Solve` has installed for `cnfData`, before it loads `cubes`.  The worker table
outlives the problem and is arbitrary. -/
def System.init (cfg : HeuristicConfig) (workers : WorkerTracker) (cnfData : CNFData)
    (cubes : List Cube) : System :=
  { server :=
      { cfg := cfg
        taskManager := .new cnfData
        timeoutTracker := .new
        workerTracker := workers
        totalCount := 0
        done := false
        completedTasks := 0
        timedOutTasks := 0
        totalTasks := 0
        broadcasts := []
        history := { handedOut := [], accepted := [], counted := [] } }
    solve := .broadcast cubes
    handlers := [] }

/-- The moves of a handler. -/
inductive HandlerMove (s : MasterServer) : Handler → MasterServer → Handler → Prop
  | getTask {h s' h'} : GetTaskMove s h s' h' → HandlerMove s (.getTask h) s' (.getTask h')
  | submitResult {h s' h'} : SubmitMove s h s' h' →
      HandlerMove s (.submitResult h) s' (.submitResult h')

theorem Handler.move_of_step {s s' : MasterServer} {h h' : Handler} {c : Choice}
    (hs : Handler.step s h c = some (s', h')) : HandlerMove s h s' h' := by
  cases h with
  | getTask g =>
      obtain ⟨⟨s₁, g'⟩, hg, hpair⟩ := Option.map_eq_some_iff.mp hs
      obtain ⟨rfl, rfl⟩ := Prod.mk.inj hpair
      exact .getTask (GetTask.move_of_step hg)
  | submitResult g =>
      obtain ⟨⟨s₁, g'⟩, hg, hpair⟩ := Option.map_eq_some_iff.mp hs
      obtain ⟨rfl, rfl⟩ := Prod.mk.inj hpair
      exact .submitResult (SubmitResult.move_of_step hg)

/-- **The steps of the system**: `Solve` moves, a call arrives, or one handler moves while the
others stand still. -/
inductive SystemMove (s : System) : Action → System → Prop
  | solve {server p} : SolveMove s.server s.solve server p →
      SystemMove s .solve { s with server := server, solve := p }
  | getTask (w) :
      SystemMove s (.getTask w) { s with handlers := s.handlers ++ [.getTask (.register w)] }
  | submitResult (r) :
      SystemMove s (.submitResult r) { s with handlers := s.handlers ++ [.submitResult (.remove r)] }
  | handler {pre h post server h'} (c) : s.handlers = pre ++ h :: post →
      HandlerMove s.server h server h' →
      SystemMove s (.handler pre.length c) { s with server := server, handlers := pre ++ h' :: post }

theorem System.move_of_step {s s' : System} {act : Action} (hs : s.step act = some s') :
    SystemMove s act s' := by
  cases act with
  | solve =>
      obtain ⟨⟨server, p⟩, hp, rfl⟩ := Option.map_eq_some_iff.mp hs
      exact .solve (Solve.move_of_step hp)
  | getTask w =>
      obtain rfl := Option.some.inj hs
      exact .getTask w
  | submitResult r =>
      obtain rfl := Option.some.inj hs
      exact .submitResult r
  | handler i c =>
      obtain ⟨⟨server, hs'⟩, hp, rfl⟩ := Option.map_eq_some_iff.mp hs
      obtain ⟨pre, h, h', post, heq, rfl, rfl, hstep⟩ := stepThread_cases hp
      exact .handler c heq (Handler.move_of_step hstep)

/-- A step of the system leaves a handler where it is, or is a step of this handler. -/
theorem System.handler_step {s s' : System} {act : Action} (hs : s.step act = some s') {i : ℕ}
    {h : Handler} (hi : s.handlers[i]? = some h) :
    (s'.handlers[i]? = some h ∧ ∀ c, act ≠ .handler i c) ∨
      ∃ c h', act = .handler i c ∧ s'.handlers[i]? = some h' ∧ HandlerMove s.server h s'.server h' := by
  cases System.move_of_step hs with
  | solve _ => exact .inl ⟨hi, fun _ => Action.noConfusion⟩
  | getTask w =>
      exact .inl ⟨by rw [List.getElem?_append_left (List.getElem?_eq_some_iff.mp hi).1, hi],
        fun _ => Action.noConfusion⟩
  | submitResult r =>
      exact .inl ⟨by rw [List.getElem?_append_left (List.getElem?_eq_some_iff.mp hi).1, hi],
        fun _ => Action.noConfusion⟩
  | @handler pre g post server g' c heq hm =>
      by_cases hself : i = pre.length
      · subst hself
        obtain rfl : g = h := by simpa [heq] using hi
        exact .inr ⟨c, g', rfl, by simp, hm⟩
      · refine .inl ⟨?_, fun c' hact => hself (Action.handler.inj hact).1.symm⟩
        rw [heq] at hi
        exact (getElem?_exchange hself).trans hi

/-! ### Quantities and properties over the whole system -/

/-- An additive quantity over the server, `Solve` and the handlers. -/
def System.total {M : Type*} [AddCommMonoid M] (F : MasterServer → M) (f : Solve → M)
    (g : Handler → M) (s : System) : M :=
  F s.server + f s.solve + (s.handlers.map g).sum

/-- **Conservation.**  A quantity that calls enter with zero, and that every move keeps, is
constant. -/
theorem System.total_step {M : Type*} [AddCommMonoid M] {F : MasterServer → M} {f : Solve → M}
    {g : Handler → M} {s s' : System} {act : Action} (hs : s.step act = some s')
    (hcall : ∀ w, g (.getTask (.register w)) = 0) (hcall' : ∀ r, g (.submitResult (.remove r)) = 0)
    (hsolve : ∀ q server p, act = .solve → s.solve = q → SolveMove s.server q server p →
      F server + f p = F s.server + f q)
    (hhandler : ∀ i c h server h', act = .handler i c → s.handlers[i]? = some h →
      HandlerMove s.server h server h' → F server + g h' = F s.server + g h) :
    s'.total F f g = s.total F f g := by
  cases System.move_of_step hs with
  | solve hp =>
      show F _ + f _ + _ = F _ + f _ + _
      rw [hsolve _ _ _ rfl rfl hp]
  | getTask w => simp [System.total, hcall]
  | submitResult r => simp [System.total, hcall']
  | @handler pre h post server h' c heq hm =>
      have hlocal := hhandler pre.length c h server h' rfl (by simp [heq]) hm
      have hswap : (F server + f s.solve) + g h' = (F s.server + f s.solve) + g h := by
        rw [add_right_comm, hlocal, add_right_comm]
      show F server + f s.solve + _ = F s.server + f s.solve + (s.handlers.map g).sum
      rw [heq]
      exact sum_exchange hswap pre post

/-- **Bounded growth.**  A quantity that no move raises beyond the growth of the bound `B` stays
below `B`. -/
theorem System.total_le (F B : MasterServer → ℕ) (f : Solve → ℕ) (g : Handler → ℕ)
    {s s' : System} {act : Action} (hs : s.step act = some s')
    (hcall : ∀ w, g (.getTask (.register w)) = 0) (hcall' : ∀ r, g (.submitResult (.remove r)) = 0)
    (hsolve : ∀ q server p, s.solve = q → SolveMove s.server q server p →
      F server + f p + B s.server ≤ F s.server + f q + B server)
    (hhandler : ∀ h server h', h ∈ s.handlers → HandlerMove s.server h server h' →
      F server + g h' + B s.server ≤ F s.server + g h + B server)
    (hle : s.total F f g ≤ B s.server) : s'.total F f g ≤ B s'.server := by
  cases System.move_of_step hs with
  | solve hp =>
      have hlocal := hsolve _ _ _ rfl hp
      simp only [System.total] at hle ⊢
      omega
  | getTask w => simpa [System.total, hcall] using hle
  | submitResult r => simpa [System.total, hcall'] using hle
  | @handler pre h post server h' c heq hm =>
      have hlocal := hhandler h server h' (by simp [heq]) hm
      have hswap : (F server + f s.solve) + g h' + B s.server ≤
          (F s.server + f s.solve) + g h + B server := by omega
      rw [System.total, heq] at hle
      exact sum_exchange_le hswap hle

/-- **Handler-wise properties.**  What arriving calls have, and what every move gives back to the
handler that makes it, holds of every handler. -/
theorem System.handlers_step {P : Handler → Prop} {s s' : System} {act : Action}
    (hs : s.step act = some s') (hcall : ∀ w, P (.getTask (.register w)))
    (hcall' : ∀ r, P (.submitResult (.remove r)))
    (hhandler : ∀ i c h server h', act = .handler i c → s.handlers[i]? = some h → P h →
      HandlerMove s.server h server h' → P h')
    (hall : ∀ h ∈ s.handlers, P h) : ∀ h ∈ s'.handlers, P h := by
  cases System.move_of_step hs with
  | solve _ => exact hall
  | getTask w => exact forall_arrive hall (hcall w)
  | submitResult r => exact forall_arrive hall (hcall' r)
  | @handler pre h post server h' c heq hm =>
      have hself := hhandler pre.length c h server h' rfl (by simp [heq])
        (hall h (by simp [heq])) hm
      rw [heq] at hall
      exact forall_exchange hall hself

end HydraSAT.Master
