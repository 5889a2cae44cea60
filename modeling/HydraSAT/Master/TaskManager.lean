import HydraSAT.Lib.FiniteMap
import HydraSAT.Master.Splitting

/-!
# The task manager

The state and the operations of `task_manager.go`, cut at their atomic steps: a critical section
of `tm.mu`, an atomic addition and a channel operation are one step each, and a method is the
sequence of its steps.

* `EnqueueCubes` is the control point of a running `EnqueueCubes` call.  One turn of its loop is
  four steps of `enqueueStep`: `makePayload` draws an id, enters the cube in the checkbook, counts
  the task active, and the loop sends the payload on the 10000-slot queue, where it blocks while
  the queue is full.
* `deleteTask` and `releaseTask` are the two steps of `GetAndRemoveTask`; the mutex `mu` is held
  between them.
* `isEmptyActive` and `isEmptyQueue` are the two reads of `IsEmpty`.

Ids are the successive values of the 64-bit counter `nextID`; `activeTasks` wraps as the `int32` it
is.
-/

namespace HydraSAT.Master

open HydraSAT.Lib

/-- The parsed formula: header, clause text for the workers, clauses for the splitter. -/
structure CNFData where
  numVars : ℤ
  numClauses : ℤ
  body : String
  clauses : List Clause

/-- The message a worker receives. -/
structure TaskPayload where
  taskId : ℤ
  numVars : ℤ
  numClauses : ℤ
  formulaBody : String
  literals : Cube
  timeoutSec : ℤ
  deriving DecidableEq

/-- What the checkbook remembers about a task. -/
structure TaskEntry where
  cube : Cube
  hostname : String
  deriving DecidableEq

/-- The task manager of one problem; `mu` tells whether its mutex is held. -/
structure TaskManager where
  taskQueue : List TaskPayload
  checkbook : AList (fun _ : ℤ => TaskEntry)
  mu : Bool
  nextID : ℤ
  activeTasks : ℤ
  cnfData : CNFData

/-- Slots of the task channel. -/
def queueCapacity : ℕ := 10000

namespace TaskManager

/-- `NewTaskManager`. -/
def new (cnfData : CNFData) : TaskManager :=
  { taskQueue := [], checkbook := ∅, mu := false, nextID := 0, activeTasks := 0, cnfData := cnfData }

/-- `atomic.AddInt64(&tm.nextID, 1)`. -/
def drawID (tm : TaskManager) : TaskManager := { tm with nextID := tm.nextID + 1 }

/-- `tm.checkbook[id] = taskEntry{cube: cube}`. -/
def enter (tm : TaskManager) (id : ℤ) (cube : Cube) : TaskManager :=
  { tm with checkbook := tm.checkbook.insert id ⟨cube, ""⟩ }

/-- `atomic.AddInt32(&tm.activeTasks, d)`. -/
def addActive (tm : TaskManager) (d : ℤ) : TaskManager :=
  { tm with activeTasks := int32 (tm.activeTasks + d) }

/-- The payload `makePayload` returns; its timeout is stamped by `GetTask`. -/
def payload (tm : TaskManager) (id : ℤ) (cube : Cube) : TaskPayload :=
  { taskId := id
    numVars := tm.cnfData.numVars
    numClauses := tm.cnfData.numClauses
    formulaBody := tm.cnfData.body
    literals := cube
    timeoutSec := 0 }

/-- `tm.taskQueue <- task`. -/
def push (tm : TaskManager) (task : TaskPayload) : TaskManager :=
  { tm with taskQueue := tm.taskQueue ++ [task] }

/-- First step of `GetAndRemoveTask`: `tm.mu.Lock()` and, for a known id, the deletion.  An unknown
id unlocks again at once. -/
def deleteTask (tm : TaskManager) (id : ℤ) : TaskManager :=
  match tm.checkbook.lookup id with
  | some _ => { tm with checkbook := tm.checkbook.erase id, mu := true }
  | none => tm

/-- Second step of `GetAndRemoveTask`: one active task less, and the unlock. -/
def releaseTask (tm : TaskManager) : TaskManager := { tm.addActive (-1) with mu := false }

/-- `RecordAssignment`. -/
def recordAssignment (tm : TaskManager) (id : ℤ) (hostname : String) : TaskManager :=
  match tm.checkbook.lookup id with
  | some e => { tm with checkbook := tm.checkbook.insert id { e with hostname := hostname } }
  | none => tm

/-- First read of `IsEmpty`. -/
def isEmptyActive (tm : TaskManager) : Bool := tm.activeTasks == 0

/-- Second read of `IsEmpty`. -/
def isEmptyQueue (tm : TaskManager) : Bool := tm.taskQueue.isEmpty

/-- The cubes of the outstanding tasks. -/
def outstanding (tm : TaskManager) : List Cube := tm.checkbook.entries.map fun e => e.2.cube

end TaskManager

/-- Where an `EnqueueCubes` call stands; `rest` are the cubes its loop still has to take. -/
inductive EnqueueCubes
  /-- At the head of the loop. -/
  | loop (rest : List Cube)
  /-- In `makePayload`, about to enter the cube in the checkbook. -/
  | insert (id : ℤ) (cube : Cube) (rest : List Cube)
  /-- In `makePayload`, about to count the task active. -/
  | activate (id : ℤ) (cube : Cube) (rest : List Cube)
  /-- About to send the payload. -/
  | send (task : TaskPayload) (rest : List Cube)
  deriving DecidableEq

/-- One step of a running `EnqueueCubes`; `none` when it is finished, waits for the mutex or blocks
on the full queue. -/
def enqueueStep (tm : TaskManager) : EnqueueCubes → Option (TaskManager × EnqueueCubes)
  | .loop [] => none
  | .loop (cube :: rest) => some (tm.drawID, .insert (tm.nextID + 1) cube rest)
  | .insert id cube rest =>
      if tm.mu then none else some (tm.enter id cube, .activate id cube rest)
  | .activate id cube rest => some (tm.addActive 1, .send (tm.payload id cube) rest)
  | .send task rest =>
      if tm.taskQueue.length < queueCapacity then some (tm.push task, .loop rest) else none

namespace EnqueueCubes

/-- The cubes not entered in the checkbook yet. -/
def pending : EnqueueCubes → List Cube
  | .loop rest => rest
  | .insert _ cube rest => cube :: rest
  | .activate _ _ rest => rest
  | .send _ rest => rest

/-- The ids drawn and not entered in the checkbook yet. -/
def drawn : EnqueueCubes → List ℤ
  | .insert id _ _ => [id]
  | _ => []

/-- The ids drawn and not sent on the queue yet. -/
def unsent : EnqueueCubes → List ℤ
  | .loop _ => []
  | .insert id _ _ => [id]
  | .activate id _ _ => [id]
  | .send task _ => [task.taskId]

/-- How many tasks are entered in the checkbook and not counted active yet. -/
def uncounted : EnqueueCubes → ℤ
  | .activate _ _ _ => 1
  | _ => 0

/-- The call has sent its last cube. -/
def finished : EnqueueCubes → Bool
  | .loop [] => true
  | _ => false

end EnqueueCubes

/-! ### What one step of `EnqueueCubes` can do -/

/-- **The steps of `EnqueueCubes`.** -/
theorem enqueueStep_cases {tm tm' : TaskManager} {e e' : EnqueueCubes}
    (h : enqueueStep tm e = some (tm', e')) :
    (∃ cube rest, e = .loop (cube :: rest) ∧ tm' = tm.drawID ∧
        e' = .insert (tm.nextID + 1) cube rest) ∨
      (∃ id cube rest, e = .insert id cube rest ∧ tm.mu = false ∧ tm' = tm.enter id cube ∧
        e' = .activate id cube rest) ∨
      (∃ id cube rest, e = .activate id cube rest ∧ tm' = tm.addActive 1 ∧
        e' = .send (tm.payload id cube) rest) ∨
      (∃ task rest, e = .send task rest ∧ tm.taskQueue.length < queueCapacity ∧
        tm' = tm.push task ∧ e' = .loop rest) := by
  cases e with
  | loop rest =>
      cases rest with
      | nil => simp [enqueueStep] at h
      | cons cube rest =>
          simp only [enqueueStep, Option.some.injEq, Prod.mk.injEq] at h
          exact Or.inl ⟨cube, rest, rfl, h.1.symm, h.2.symm⟩
  | insert id cube rest =>
      simp only [enqueueStep] at h
      split at h
      · simp at h
      · rename_i hmu
        simp only [Option.some.injEq, Prod.mk.injEq] at h
        exact Or.inr (Or.inl ⟨id, cube, rest, rfl, by simpa using hmu, h.1.symm, h.2.symm⟩)
  | activate id cube rest =>
      simp only [enqueueStep, Option.some.injEq, Prod.mk.injEq] at h
      exact Or.inr (Or.inr (Or.inl ⟨id, cube, rest, rfl, h.1.symm, h.2.symm⟩))
  | send task rest =>
      simp only [enqueueStep] at h
      split at h
      · rename_i hroom
        simp only [Option.some.injEq, Prod.mk.injEq] at h
        exact Or.inr (Or.inr (Or.inr ⟨task, rest, rfl, hroom, h.1.symm, h.2.symm⟩))
      · simp at h

end HydraSAT.Master
