import Mathlib.Data.List.AList
import Mathlib.Data.Rat.Floor
import HydraSAT.Lib.Dimacs
import HydraSAT.Lib.FixedWidth

/-!
# Timeouts and workers as the master sees them

`timeout_tracker.go` and `worker_tracker.go`.  Durations and averages are exact rationals.  Each
method takes its lock once, so each is one atomic step.  Wall-clock stamps and the live CPU and
memory figures, which no step of a handler reads, are left out.
-/

namespace HydraSAT.Master

open HydraSAT.Lib

/-- The fields of `heuristic.json` that the handlers read. -/
structure HeuristicConfig where
  dynamicTimeout : Bool
  timeoutMultiplier : ℚ
  initialTimeoutSec : ℤ
  maxWorkers : ℤ

/-- `defaultConfig`. -/
def defaultConfig : HeuristicConfig :=
  { dynamicTimeout := false, timeoutMultiplier := 2, initialTimeoutSec := 30, maxWorkers := 0 }

/-! ### The timeout tracker -/

structure TimeoutTracker where
  totalSec : ℚ
  sampleCount : ℤ
  deriving DecidableEq

/-- `staticTimeout`: a non-positive setting is the no-timeout sentinel. -/
def staticTimeout (sec : ℤ) : ℤ := if sec ≤ 0 then maxInt32 else sec

namespace TimeoutTracker

/-- `NewTimeoutTracker`. -/
def new : TimeoutTracker := { totalSec := 0, sampleCount := 0 }

/-- `RecordCompletion`. -/
def recordCompletion (tt : TimeoutTracker) (durationSec : ℚ) : TimeoutTracker :=
  if durationSec ≤ 0 then tt
  else { totalSec := tt.totalSec + durationSec, sampleCount := tt.sampleCount + 1 }

/-- `CurrentTimeoutSec`.  The conversion to `int32` of a value out of range, which Go leaves to the
implementation (on amd64 it gives the least `int32`), wraps here; no result is about such a value. -/
def currentTimeoutSec (tt : TimeoutTracker) (cfg : HeuristicConfig) : ℤ :=
  if !cfg.dynamicTimeout then staticTimeout cfg.initialTimeoutSec
  else if tt.sampleCount = 0 then staticTimeout cfg.initialTimeoutSec
  else int32 (max (Rat.ceil (tt.totalSec / tt.sampleCount * cfg.timeoutMultiplier)) 1)

end TimeoutTracker

/-! ### The worker tracker -/

inductive WorkerStatus
  | idle
  | busy
  | timeout
  deriving DecidableEq

/-- What the master knows about one worker. -/
structure WorkerState where
  workerID : String
  hostname : String
  status : WorkerStatus
  currentTaskID : ℤ
  currentCube : Cube
  tasksCompleted : ℤ
  tasksFailed : ℤ
  taskTimeout : ℚ
  deriving DecidableEq

/-- The worker table, keyed by `workerKey`. -/
structure WorkerTracker where
  workers : AList (fun _ : String => WorkerState)

/-- The map key of a worker. -/
def workerKey (hostname workerID : String) : String := hostname ++ "\x00" ++ workerID

namespace WorkerTracker

/-- `NewWorkerTracker`. -/
def new : WorkerTracker := { workers := ∅ }

/-- Apply `f` to the entry of a worker, if it has one. -/
def modify (wt : WorkerTracker) (hostname workerID : String) (f : WorkerState → WorkerState) :
    WorkerTracker :=
  match wt.workers.lookup (workerKey hostname workerID) with
  | some w => { workers := wt.workers.insert (workerKey hostname workerID) (f w) }
  | none => wt

/-- `RegisterWorker`. -/
def registerWorker (wt : WorkerTracker) (workerID hostname : String) : WorkerTracker :=
  match wt.workers.lookup (workerKey hostname workerID) with
  | some _ => wt
  | none =>
      { workers := wt.workers.insert (workerKey hostname workerID)
          { workerID := workerID, hostname := hostname, status := .idle, currentTaskID := -1
            currentCube := [], tasksCompleted := 0, tasksFailed := 0, taskTimeout := 0 } }

/-- `AssignTask`. -/
def assignTask (wt : WorkerTracker) (workerID hostname : String) (taskID : ℤ) (cube : Cube)
    (timeoutSec : ℚ) : WorkerTracker :=
  wt.modify hostname workerID fun w =>
    { w with status := .busy, currentTaskID := taskID, currentCube := cube
             taskTimeout := timeoutSec }

/-- `SetIdle`. -/
def setIdle (wt : WorkerTracker) (workerID hostname : String) : WorkerTracker :=
  wt.modify hostname workerID fun w =>
    { w with status := .idle, currentTaskID := -1, currentCube := [] }

/-- `UpdateWorkerResult`. -/
def updateWorkerResult (wt : WorkerTracker) (workerID hostname : String) (timedOut : Bool) :
    WorkerTracker :=
  wt.modify hostname workerID fun w =>
    if timedOut then
      { w with status := .timeout, tasksFailed := int32 (w.tasksFailed + 1), currentTaskID := -1
               currentCube := [] }
    else
      { w with status := .idle, tasksCompleted := int32 (w.tasksCompleted + 1), currentTaskID := -1
               currentCube := [] }

/-- `BusyWorkerCount`. -/
def busyWorkerCount (wt : WorkerTracker) : ℤ :=
  int32 (wt.workers.entries.countP fun w => w.2.status == .busy)

end WorkerTracker

end HydraSAT.Master
