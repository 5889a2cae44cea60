import HydraSAT.Master.Completion

/-!
# A batch of problems

`main` calls `Solve` once for every file, on one server.  The handlers keep running while `Solve`
replaces the per-problem fields: a handler may start during one problem and finish during a later one,
and a worker may submit a task of an earlier problem.  `SubmitResult` takes a snapshot of the task
manager and of the channel, and reads every other field of the server when it needs it.

* `Batch.step` runs `Solve` file by file, its reset one assignment at a time, against any number of
  handlers; every handler moves by the same local step as in `System`;
* `Batch.KeepsApart`: a result finds only the entry of its own task, and `Solve` replaces no field that
  a result has still to be entered in;
* `Batch.apart`: then a result leaves the other problems alone;
* `Batch.keepsApart_of_inTime`: this is so if every result arrives while its own problem is solved;
* `Batch.mixes`: a late result removes the entry of the next problem that has the same id.
-/

namespace HydraSAT.Master

open HydraSAT.Lib

/-! ### Problems and fields -/

/-- The per-problem fields of the server. -/
inductive Field
  | taskManager
  | timeoutTracker
  | totalCount
  | done
  | completedTasks
  | timedOutTasks
  | totalTasks
  deriving DecidableEq

/-- The order in which `Solve` resets them. -/
def resetOrder : List Field :=
  [.taskManager, .timeoutTracker, .totalCount, .done, .completedTasks, .timedOutTasks, .totalTasks]

/-- The values of the fields for one problem: what the pointers that `Solve` installs for it point to,
and the counters from their reset to the next one. -/
structure Problem where
  taskManager : TaskManager
  timeoutTracker : TimeoutTracker
  totalCount : ℤ
  done : Bool
  completedTasks : ℤ
  timedOutTasks : ℤ
  totalTasks : ℤ

def Problem.new (cnfData : CNFData) : Problem :=
  { taskManager := .new cnfData
    timeoutTracker := .new
    totalCount := 0
    done := false
    completedTasks := 0
    timedOutTasks := 0
    totalTasks := 0 }

/-! ### Handlers, `Solve`, and the whole batch -/

/-- A running handler. -/
inductive BatchHandler
  /-- A `GetTask` call that has not taken its snapshot. -/
  | arriving (g : GetTask)
  /-- A `GetTask` call with the fields of problem `p`. -/
  | getTask (p : ℕ) (g : GetTask)
  /-- A `SubmitResult` call that has not taken its snapshot.  The result is for a payload of problem
  `k`; nothing in the call tells the master so. -/
  | submitting (k : ℕ) (r : TaskResult)
  /-- A `SubmitResult` call with the task manager and the channel of problem `p`. -/
  | submitResult (k p : ℕ) (g : SubmitResult)

/-- Where the file loop of `main` stands. -/
inductive BatchSolve
  | idle (files : List (CNFData × List Cube))
  /-- Holding `s.mu`, with these fields still to be reset. -/
  | reset (k : ℕ) (fields : List Field) (cubes : List Cube) (files : List (CNFData × List Cube))
  | solving (k : ℕ) (p : Solve) (files : List (CNFData × List Cube))

/-- The server over a whole batch. -/
structure Batch where
  cfg : HeuristicConfig
  workerTracker : WorkerTracker
  broadcasts : List ℤ
  history : History
  /-- The problems so far; number 0 is none and stands for the `nil` fields before the first `Solve`. -/
  problems : List Problem
  /-- The problem whose value the field of the server has. -/
  current : Field → ℕ
  solve : BatchSolve
  handlers : List BatchHandler

/-- What the fields hold before the first `Solve`. -/
def Problem.none : Problem := .new { numVars := 0, numClauses := 0, body := "", clauses := [] }

namespace Batch

def problem (s : Batch) (j : ℕ) : Problem := s.problems.getD j .none

/-- The server as it is for somebody whose field `f` is that of problem `owner f`. -/
def view (s : Batch) (owner : Field → ℕ) : MasterServer :=
  { cfg := s.cfg
    taskManager := (s.problem (owner .taskManager)).taskManager
    timeoutTracker := (s.problem (owner .timeoutTracker)).timeoutTracker
    workerTracker := s.workerTracker
    totalCount := (s.problem (owner .totalCount)).totalCount
    done := (s.problem (owner .done)).done
    completedTasks := (s.problem (owner .completedTasks)).completedTasks
    timedOutTasks := (s.problem (owner .timedOutTasks)).timedOutTasks
    totalTasks := (s.problem (owner .totalTasks)).totalTasks
    broadcasts := s.broadcasts
    history := s.history }

end Batch

/-- Problem `j` after a step of somebody to whom the server is `m`. -/
def Problem.update (q : Problem) (owner : Field → ℕ) (m : MasterServer) (j : ℕ) : Problem :=
  { taskManager := if owner .taskManager = j then m.taskManager else q.taskManager
    timeoutTracker := if owner .timeoutTracker = j then m.timeoutTracker else q.timeoutTracker
    totalCount := if owner .totalCount = j then m.totalCount else q.totalCount
    done := if owner .done = j then m.done else q.done
    completedTasks := if owner .completedTasks = j then m.completedTasks else q.completedTasks
    timedOutTasks := if owner .timedOutTasks = j then m.timedOutTasks else q.timedOutTasks
    totalTasks := if owner .totalTasks = j then m.totalTasks else q.totalTasks }

namespace Batch

/-- The batch after a step of somebody to whom the server is `m`. -/
def store (s : Batch) (owner : Field → ℕ) (m : MasterServer) : Batch :=
  { s with
    workerTracker := m.workerTracker
    broadcasts := m.broadcasts
    history := m.history
    problems := s.problems.mapIdx fun j q => q.update owner m j }

/-- `GetTask` works on its snapshot `tm`, `tt`. -/
def getTaskOwner (s : Batch) (p : ℕ) : Field → ℕ
  | .taskManager => p
  | .timeoutTracker => p
  | f => s.current f

/-- `SubmitResult` works on its snapshot `tm`, `doneCh`, and on `s.timeoutTracker`, `s.totalCount` and
the counters as it finds them. -/
def submitOwner (s : Batch) (p : ℕ) : Field → ℕ
  | .taskManager => p
  | .done => p
  | f => s.current f

/-- `Solve` holds `s.mu`. -/
def locked (s : Batch) : Bool :=
  match s.solve with
  | .reset _ _ _ _ => true
  | _ => false

end Batch

/-- One atomic step of a handler.  A snapshot waits for `s.mu`, so its fields are all of one problem. -/
def BatchHandler.step (s : Batch) : BatchHandler → Choice → Option (Batch × BatchHandler)
  | .arriving (.select w), _ =>
      if s.locked then none
      else if s.current .taskManager = 0 then some (s, .arriving (.returned (some noTask)))
      else some (s, .getTask (s.current .taskManager) (.select w))
  | .arriving g, c =>
      (GetTask.step (s.view s.current) g c).map fun r => (s.store s.current r.1, .arriving r.2)
  | .getTask p g, c =>
      (GetTask.step (s.view (s.getTaskOwner p)) g c).map fun r =>
        (s.store (s.getTaskOwner p) r.1, .getTask p r.2)
  | .submitting k r, _ =>
      if s.locked then none
      else if s.current .taskManager = 0 then some (s, .submitResult k 0 (.returned false))
      else some (s, .submitResult k (s.current .taskManager) (.remove r))
  | .submitResult k p g, c =>
      (SubmitResult.step (s.view (s.submitOwner p)) g c).map fun r =>
        (s.store (s.submitOwner p) r.1, .submitResult k p r.2)

/-- Who moves. -/
inductive BatchAction
  | solve
  /-- A `GetTask` call arrives. -/
  | getTask (w : WorkerIdentity)
  /-- A `SubmitResult` call arrives, for the task in the reply of handler `i`. -/
  | submitResult (i : ℕ) (r : TaskResult)
  | handler (i : ℕ) (c : Choice)

namespace Batch

/-- One step of the file loop. -/
def stepSolve (s : Batch) : BatchSolve → Option Batch
  | .idle [] => none
  | .idle ((cnfData, cubes) :: files) =>
      some { s with
        problems := s.problems ++ [.new cnfData]
        solve := .reset s.problems.length resetOrder cubes files }
  | .reset k (f :: fields) cubes files =>
      some { s with
        current := Function.update s.current f k
        solve := .reset k fields cubes files }
  | .reset k [] cubes files => some { s with solve := .solving k (.broadcast cubes) files }
  | .solving _ (.returned _) files => some { s with solve := .idle files }
  | .solving k p files =>
      (Solve.step (s.view fun _ => k) p).map fun r =>
        { s.store (fun _ => k) r.1 with solve := .solving k r.2 files }

/-- One atomic step of the batch. -/
def step (s : Batch) : BatchAction → Option Batch
  | .solve => s.stepSolve s.solve
  | .getTask w => some { s with handlers := s.handlers ++ [.arriving (.register w)] }
  | .submitResult i r =>
      match s.handlers[i]? with
      | some (.getTask k (.returned (some task))) =>
          if task.taskId = r.taskId ∧ task.taskId ≠ -1 then
            some { s with handlers := s.handlers ++ [.submitting k r] }
          else none
      | _ => none
  | .handler i c => (stepThread BatchHandler.step s s.handlers i c).map fun p =>
      { p.1 with handlers := p.2 }

/-- The server as `NewMasterServer` leaves it, with the files to solve. -/
def init (cfg : HeuristicConfig) (workers : WorkerTracker) (files : List (CNFData × List Cube)) :
    Batch :=
  { cfg := cfg
    workerTracker := workers
    broadcasts := []
    history := { handedOut := [], accepted := [], counted := [] }
    problems := [.none]
    current := fun _ => 0
    solve := .idle files
    handlers := [] }

end Batch

/-! ### Moves -/

/-- The moves of a handler. -/
inductive BatchHandlerMove (s : Batch) : BatchHandler → Batch → BatchHandler → Prop
  | notLoaded (w) : s.current .taskManager = 0 →
      BatchHandlerMove s (.arriving (.select w)) s (.arriving (.returned (some noTask)))
  | snapshot (w) : s.locked = false → s.current .taskManager ≠ 0 →
      BatchHandlerMove s (.arriving (.select w)) s (.getTask (s.current .taskManager) (.select w))
  | arriving {g m g'} : GetTaskMove (s.view s.current) g m g' →
      BatchHandlerMove s (.arriving g) (s.store s.current m) (.arriving g')
  | getTask {p g m g'} : GetTaskMove (s.view (s.getTaskOwner p)) g m g' →
      BatchHandlerMove s (.getTask p g) (s.store (s.getTaskOwner p) m) (.getTask p g')
  | refused (k r) : s.current .taskManager = 0 →
      BatchHandlerMove s (.submitting k r) s (.submitResult k 0 (.returned false))
  | submitting (k r) : s.locked = false → s.current .taskManager ≠ 0 →
      BatchHandlerMove s (.submitting k r) s (.submitResult k (s.current .taskManager) (.remove r))
  | submitResult {k p g m g'} : SubmitMove (s.view (s.submitOwner p)) g m g' →
      BatchHandlerMove s (.submitResult k p g) (s.store (s.submitOwner p) m) (.submitResult k p g')

theorem BatchHandler.arriving_of_step {s s' : Batch} {g : GetTask} {h' : BatchHandler} {c : Choice}
    (hs : ((GetTask.step (s.view s.current) g c).map fun r =>
      (s.store s.current r.1, BatchHandler.arriving r.2)) = some (s', h')) :
    BatchHandlerMove s (.arriving g) s' h' := by
  obtain ⟨⟨m, g'⟩, hg, hpair⟩ := Option.map_eq_some_iff.mp hs
  obtain ⟨rfl, rfl⟩ := Prod.mk.inj hpair
  exact .arriving (GetTask.move_of_step hg)

theorem BatchHandler.move_of_step {s s' : Batch} {h h' : BatchHandler} {c : Choice}
    (hs : BatchHandler.step s h c = some (s', h')) : BatchHandlerMove s h s' h' := by
  cases h with
  | arriving g =>
      cases g with
      | select w =>
          rw [BatchHandler.step] at hs
          by_cases hlocked : s.locked = true
          · rw [if_pos hlocked] at hs
            cases hs
          by_cases hnil : s.current .taskManager = 0
          · rw [if_neg hlocked, if_pos hnil] at hs
            obtain ⟨rfl, rfl⟩ := Prod.mk.inj (Option.some.inj hs)
            exact .notLoaded w hnil
          · rw [if_neg hlocked, if_neg hnil] at hs
            obtain ⟨rfl, rfl⟩ := Prod.mk.inj (Option.some.inj hs)
            exact .snapshot w (Bool.eq_false_iff.mpr hlocked) hnil
      | _ => exact BatchHandler.arriving_of_step (c := c) hs
  | getTask p g =>
      obtain ⟨⟨m, g'⟩, hg, hpair⟩ := Option.map_eq_some_iff.mp hs
      obtain ⟨rfl, rfl⟩ := Prod.mk.inj hpair
      exact .getTask (GetTask.move_of_step hg)
  | submitting k r =>
      rw [BatchHandler.step] at hs
      by_cases hlocked : s.locked = true
      · rw [if_pos hlocked] at hs
        cases hs
      by_cases hnil : s.current .taskManager = 0
      · rw [if_neg hlocked, if_pos hnil] at hs
        obtain ⟨rfl, rfl⟩ := Prod.mk.inj (Option.some.inj hs)
        exact .refused k r hnil
      · rw [if_neg hlocked, if_neg hnil] at hs
        obtain ⟨rfl, rfl⟩ := Prod.mk.inj (Option.some.inj hs)
        exact .submitting k r (Bool.eq_false_iff.mpr hlocked) hnil
  | submitResult k p g =>
      obtain ⟨⟨m, g'⟩, hg, hpair⟩ := Option.map_eq_some_iff.mp hs
      obtain ⟨rfl, rfl⟩ := Prod.mk.inj hpair
      exact .submitResult (SubmitResult.move_of_step hg)

/-- A move of a handler resets no field. -/
theorem BatchHandlerMove.current {s s' : Batch} {h h' : BatchHandler}
    (hm : BatchHandlerMove s h s' h') : s'.current = s.current := by
  cases hm <;> rfl

/-- **What a step does** to the handlers and to the fields: `Solve` resets one field or none, a call
arrives, or one handler moves. -/
inductive BatchMove (s : Batch) : BatchAction → Batch → Prop
  | reset {k f fields cubes files s'} : s.solve = .reset k (f :: fields) cubes files →
      s'.current = Function.update s.current f k → s'.handlers = s.handlers → BatchMove s .solve s'
  | solve {s'} : s'.current = s.current → s'.handlers = s.handlers → BatchMove s .solve s'
  | getTask (w) :
      BatchMove s (.getTask w) { s with handlers := s.handlers ++ [.arriving (.register w)] }
  | submitResult (i k r) :
      BatchMove s (.submitResult i r) { s with handlers := s.handlers ++ [.submitting k r] }
  | handler {pre h post s' h'} (c) : s.handlers = pre ++ h :: post → BatchHandlerMove s h s' h' →
      BatchMove s (.handler pre.length c) { s' with handlers := pre ++ h' :: post }

theorem Batch.stepSolve_solving {p : Solve} (hp : ∀ count, p ≠ .returned count) (s : Batch) (k : ℕ)
    (files : List (CNFData × List Cube)) :
    s.stepSolve (.solving k p files) =
      (Solve.step (s.view fun _ => k) p).map fun r =>
        { s.store (fun _ => k) r.1 with solve := .solving k r.2 files } := by
  cases p with
  | returned count => exact absurd rfl (hp count)
  | _ => rfl

theorem Batch.solve_of_step {s s' : Batch} {p : BatchSolve} (hp : s.solve = p)
    (hs : s.stepSolve p = some s') : BatchMove s .solve s' := by
  cases p with
  | idle files =>
      cases files with
      | nil => cases hs
      | cons file files =>
          obtain rfl := Option.some.inj hs
          exact .solve rfl rfl
  | reset k fields cubes files =>
      cases fields with
      | nil =>
          obtain rfl := Option.some.inj hs
          exact .solve rfl rfl
      | cons f fields =>
          obtain rfl := Option.some.inj hs
          exact .reset hp rfl rfl
  | solving k q files =>
      by_cases hq : ∃ count, q = .returned count
      · obtain ⟨count, rfl⟩ := hq
        obtain rfl := Option.some.inj hs
        exact .solve rfl rfl
      · rw [Batch.stepSolve_solving fun count heq => hq ⟨count, heq⟩] at hs
        obtain ⟨r, -, rfl⟩ := Option.map_eq_some_iff.mp hs
        exact .solve rfl rfl

theorem Batch.move_of_step {s s' : Batch} {act : BatchAction} (hs : s.step act = some s') :
    BatchMove s act s' := by
  cases act with
  | solve => exact Batch.solve_of_step rfl hs
  | getTask w =>
      obtain rfl := Option.some.inj hs
      exact .getTask w
  | submitResult i r =>
      simp only [Batch.step] at hs
      split at hs
      · rename_i k task hget
        obtain ⟨-, hs⟩ := (Option.ite_none_right_eq_some).mp hs
        obtain rfl := Option.some.inj hs
        exact .submitResult i k r
      · cases hs
  | handler i c =>
      obtain ⟨⟨s₁, hs'⟩, hp, rfl⟩ := Option.map_eq_some_iff.mp hs
      obtain ⟨pre, h, h', post, heq, rfl, rfl, hstep⟩ := stepThread_cases hp
      exact .handler c heq (BatchHandler.move_of_step hstep)

/-! ### What a result is entered in -/

/-- The fields that an accepted result is entered in. -/
def TaskResult.due (r : TaskResult) : List Field :=
  if r.timedOut then [.timedOutTasks]
  else if (setString10 r.count).isSome then
    if r.count ≠ "0" ∧ 0 < r.durationSec then [.totalCount, .timeoutTracker, .completedTasks]
    else [.totalCount, .completedTasks]
  else [.completedTasks]

/-- The fields that the result of a handler has still to be entered in. -/
def SubmitResult.due : SubmitResult → List Field
  | .release r _ _ => r.due
  | .updateWorker r _ _ => r.due
  | .countTimeout _ _ => [.timedOutTasks]
  | .addCount r _ _ =>
      if r.count ≠ "0" ∧ 0 < r.durationSec then [.totalCount, .timeoutTracker, .completedTasks]
      else [.totalCount, .completedTasks]
  | .readTimeout _ => [.timeoutTracker, .completedTasks]
  | .recordCompletion _ _ => [.timeoutTracker, .completedTasks]
  | .rereadTimeout _ _ => [.completedTasks]
  | .broadcast _ _ => [.completedTasks]
  | .countCompleted _ => [.completedTasks]
  | _ => []

/-- The handler has found the entry of its task. -/
def SubmitResult.found : SubmitResult → Bool
  | .remove _ => false
  | .returned _ => false
  | _ => true

/-- What a move does to the fields still to be entered: a handler that finds an entry has those of its
result, and no other move adds one. -/
theorem SubmitMove.due {m m' : MasterServer} {g g' : SubmitResult} (hm : SubmitMove m g m' g') :
    (∃ r entry, g = .remove r ∧ m.taskManager.checkbook.lookup r.taskId = some entry ∧
        g'.due = r.due) ∨
      (g'.due ⊆ g.due ∧ (g'.found = true → g.found = true)) := by
  cases hm with
  | accept r entry hmu hl => exact .inl ⟨r, entry, rfl, hl, rfl⟩
  | reject r hmu hl => exact .inr ⟨List.nil_subset _, fun h => h⟩
  | timedOut r hostname cube hto => exact .inr ⟨by simp [SubmitResult.due, TaskResult.due, hto], id⟩
  | parsed r hostname cube val hto hval =>
      exact .inr ⟨by simp [SubmitResult.due, TaskResult.due, hto, hval], id⟩
  | unparsed r hostname cube hto hval =>
      exact .inr ⟨by simp [SubmitResult.due, TaskResult.due, hto, hval], id⟩
  | addMeasured r cube val hmeasured =>
      refine .inr ⟨?_, id⟩
      rw [SubmitResult.due, SubmitResult.due, if_pos hmeasured]
      exact List.subset_cons_self _ _
  | addUnmeasured r cube val hunmeasured =>
      refine .inr ⟨?_, id⟩
      rw [SubmitResult.due, SubmitResult.due, if_neg hunmeasured]
      exact List.subset_cons_self _ _
  | recordCompletion r oldTimeout => exact .inr ⟨List.subset_cons_self _ _, id⟩
  | countTimeout r cube => exact .inr ⟨List.nil_subset _, id⟩
  | countCompleted r => exact .inr ⟨List.nil_subset _, id⟩
  | _ => exact .inr ⟨List.Subset.refl _, by simp [SubmitResult.found]⟩

/-- A move leaves alone what its result is not to be entered in. -/
theorem SubmitMove.leaves {m m' : MasterServer} {g g' : SubmitResult} (hm : SubmitMove m g m' g') :
    (.totalCount ∉ g.due → m'.totalCount = m.totalCount) ∧
      (.timeoutTracker ∉ g.due → m'.timeoutTracker = m.timeoutTracker) ∧
      (.completedTasks ∉ g.due → m'.completedTasks = m.completedTasks) ∧
      (.timedOutTasks ∉ g.due → m'.timedOutTasks = m.timedOutTasks) := by
  cases hm with
  | countTimeout r cube =>
      exact ⟨fun _ => rfl, fun _ => rfl, fun _ => rfl, fun h => absurd List.mem_cons_self h⟩
  | addMeasured r cube val hmeasured =>
      refine ⟨fun h => absurd ?_ h, fun _ => rfl, fun _ => rfl, fun _ => rfl⟩
      rw [SubmitResult.due, if_pos hmeasured]
      exact List.mem_cons_self
  | addUnmeasured r cube val hunmeasured =>
      refine ⟨fun h => absurd ?_ h, fun _ => rfl, fun _ => rfl, fun _ => rfl⟩
      rw [SubmitResult.due, if_neg hunmeasured]
      exact List.mem_cons_self
  | recordCompletion r oldTimeout =>
      exact ⟨fun _ => rfl, fun h => absurd List.mem_cons_self h, fun _ => rfl, fun _ => rfl⟩
  | countCompleted r =>
      exact ⟨fun _ => rfl, fun _ => rfl, fun h => absurd List.mem_cons_self h, fun _ => rfl⟩
  | _ => exact ⟨fun _ => rfl, fun _ => rfl, fun _ => rfl, fun _ => rfl⟩

/-- A handler that has not found its entry, and does not find it, leaves the checkbook alone. -/
theorem SubmitMove.checkbook {m m' : MasterServer} {g g' : SubmitResult} (hm : SubmitMove m g m' g')
    (hfound : g.found = false)
    (hnone : ∀ r, g = .remove r → m.taskManager.checkbook.lookup r.taskId = none) :
    m'.taskManager.checkbook = m.taskManager.checkbook := by
  cases hm with
  | accept r entry hmu hl =>
      have hl' := hnone r rfl
      rw [hl] at hl'
      cases hl'
  | reject r hmu hl => rfl
  | _ => exact Bool.noConfusion hfound

/-! ### Problems kept apart -/

/-- No entry of the checkbook is removed, and what results are entered in is the same. -/
structure Problem.Untouched (q q' : Problem) : Prop where
  checkbook : ∀ x ∈ q.taskManager.checkbook, x ∈ q'.taskManager.checkbook
  totalCount : q'.totalCount = q.totalCount
  timeoutTracker : q'.timeoutTracker = q.timeoutTracker
  completedTasks : q'.completedTasks = q.completedTasks
  timedOutTasks : q'.timedOutTasks = q.timedOutTasks

theorem Problem.Untouched.refl (q : Problem) : q.Untouched q := ⟨fun _ hx => hx, rfl, rfl, rfl, rfl⟩

/-- The problem whose payload the result of the handler is for. -/
def BatchHandler.origin : BatchHandler → Option ℕ
  | .submitting k _ => some k
  | .submitResult k _ _ => some k
  | _ => none

/-- The fields that the result of the handler has still to be entered in. -/
def BatchHandler.due : BatchHandler → List Field
  | .submitResult _ _ g => g.due
  | _ => []

namespace Batch

/-- **The step keeps problems apart.**  A result finds an entry only in the checkbook of its own
problem, and only while the fields that it is to be entered in are those of this problem; and `Solve`
resets no field that a result has still to be entered in. -/
def KeepsApart (s : Batch) : BatchAction → Prop
  | .solve => ∀ k f fields cubes files, s.solve = .reset k (f :: fields) cubes files →
      ∀ h ∈ s.handlers, f ∉ h.due
  | .handler i _ => ∀ k p r, s.handlers[i]? = some (.submitResult k p (.remove r)) →
      r.taskId ∈ (s.problem p).taskManager.checkbook → p = k ∧ ∀ f ∈ r.due, s.current f = k
  | _ => True

/-- **A result leaves the other problems alone.** -/
def LeavesOthers (s s' : Batch) (act : BatchAction) : Prop :=
  ∀ i c h k, act = .handler i c → s.handlers[i]? = some h → h.origin = some k →
    ∀ j, j ≠ k → (s.problem j).Untouched (s'.problem j)

/-- The handler works for the problem of its result. -/
def Owns (s : Batch) : BatchHandler → Prop
  | .submitResult k p g => (g.found = true → p = k) ∧ ∀ f ∈ g.due, s.current f = k
  | _ => True

theorem problem_store (s : Batch) (owner : Field → ℕ) (m : MasterServer) (j : ℕ) :
    (s.store owner m).problem j = s.problem j ∨
      (s.store owner m).problem j = (s.problem j).update owner m j := by
  unfold problem store
  rw [List.getD_eq_getElem?_getD, List.getD_eq_getElem?_getD, List.getElem?_mapIdx]
  cases s.problems[j]? with
  | none => exact .inl rfl
  | some q => exact .inr rfl

/-- **A move of a handler that owns what it works on** leaves the other problems alone. -/
theorem Owns.untouched {s : Batch} {k p : ℕ} {g g' : SubmitResult} {m : MasterServer}
    (howns : s.Owns (.submitResult k p g))
    (hfinds : ∀ r, g = .remove r → r.taskId ∈ (s.problem p).taskManager.checkbook → p = k)
    (hm : SubmitMove (s.view (s.submitOwner p)) g m g') {j : ℕ} (hj : j ≠ k) :
    (s.problem j).Untouched ((s.store (s.submitOwner p) m).problem j) := by
  obtain ⟨hfound, hdue⟩ := howns
  obtain ⟨htotal, htracker, hcompleted, htimedOut⟩ := hm.leaves
  -- a field that still belongs to problem `j` is none of those to be entered in
  have hother : ∀ f, s.current f = j → f ∉ g.due := by
    intro f hf hmem
    exact hj (hf.symm.trans (hdue f hmem))
  rcases s.problem_store (s.submitOwner p) m j with heq | heq
  · rw [heq]
    exact Problem.Untouched.refl _
  · rw [heq]
    refine ⟨?_, ?_, ?_, ?_, ?_⟩
    · intro x hx
      show x ∈ (if p = j then m.taskManager else (s.problem j).taskManager).checkbook
      by_cases hp : p = j
      · subst hp
        have hsame := hm.checkbook (Bool.eq_false_iff.mpr fun hf => hj (hfound hf)) fun r hr =>
          AList.lookup_eq_none.mpr fun hmem => hj (hfinds r hr hmem)
        rw [if_pos rfl, hsame]
        exact hx
      · rw [if_neg hp]
        exact hx
    · refine ite_eq_right_iff.mpr fun hcur => ?_
      rw [htotal (hother _ hcur), ← hcur]
      rfl
    · refine ite_eq_right_iff.mpr fun hcur => ?_
      rw [htracker (hother _ hcur), ← hcur]
      rfl
    · refine ite_eq_right_iff.mpr fun hcur => ?_
      rw [hcompleted (hother _ hcur), ← hcur]
      rfl
    · refine ite_eq_right_iff.mpr fun hcur => ?_
      rw [htimedOut (hother _ hcur), ← hcur]
      rfl

theorem Owns.of_current {s s' : Batch} (hcur : s'.current = s.current) {h : BatchHandler}
    (howns : s.Owns h) : s'.Owns h := by
  cases h with
  | submitResult k p g => exact ⟨howns.1, fun f hf => by rw [hcur]; exact howns.2 f hf⟩
  | _ => trivial

/-- A handler that keeps apart still owns what it works on. -/
theorem Owns.move {s s' : Batch} {h h' : BatchHandler} (howns : s.Owns h)
    (hkeeps : ∀ k p r, h = .submitResult k p (.remove r) →
      r.taskId ∈ (s.problem p).taskManager.checkbook → p = k ∧ ∀ f ∈ r.due, s.current f = k)
    (hm : BatchHandlerMove s h s' h') : s'.Owns h' := by
  refine Owns.of_current hm.current ?_
  cases hm with
  | refused k r _ => exact ⟨fun hf => Bool.noConfusion hf, fun f hf => absurd hf List.not_mem_nil⟩
  | submitting k r _ _ => exact ⟨fun hf => Bool.noConfusion hf, fun f hf => absurd hf List.not_mem_nil⟩
  | @submitResult k p g m g' hm =>
      rcases hm.due with ⟨r, entry, rfl, hl, hdue⟩ | ⟨hsub, hfound⟩
      · have hmem : r.taskId ∈ (s.problem p).taskManager.checkbook := by
          refine AList.lookup_isSome.mp ?_
          show ((s.view (s.submitOwner p)).taskManager.checkbook.lookup r.taskId).isSome
          rw [hl]
          rfl
        obtain ⟨hp, hcur⟩ := hkeeps k p r rfl hmem
        exact ⟨fun _ => hp, fun f hf => hcur f (hdue ▸ hf)⟩
      · exact ⟨fun hf => howns.1 (hfound hf), fun f hf => howns.2 f (hsub hf)⟩
  | _ => trivial

/-- Every handler owns what it works on, as long as every step keeps problems apart. -/
theorem owns {cfg : HeuristicConfig} {wt : WorkerTracker} {files : List (CNFData × List Cube)}
    {s : Batch} (hr : Reaches step KeepsApart (init cfg wt files) s) : ∀ h ∈ s.handlers, s.Owns h := by
  refine hr.invariant (fun s => ∀ h ∈ s.handlers, s.Owns h) (fun h hh => absurd hh List.not_mem_nil) ?_
  intro s act s' hall hkeeps hs
  cases move_of_step hs with
  | @reset k f fields cubes files _ hsolve hcur hhandlers =>
      intro h hh
      rw [hhandlers] at hh
      have howns := hall h hh
      cases h with
      | submitResult k' p g =>
          refine ⟨howns.1, fun f' hf' => ?_⟩
          have hne : f' ≠ f := fun heq => hkeeps k f fields cubes files hsolve _ hh (heq ▸ hf')
          rw [hcur, Function.update_of_ne hne]
          exact howns.2 f' hf'
      | _ => trivial
  | solve hcur hhandlers =>
      intro h hh
      rw [hhandlers] at hh
      exact (hall h hh).of_current hcur
  | getTask w => exact forall_arrive (P := fun h => s.Owns h) hall trivial
  | submitResult i k r => exact forall_arrive (P := fun h => s.Owns h) hall trivial
  | @handler pre h post s₁ h' c heq hm =>
      have hself : s.handlers[pre.length]? = some h := by simp [heq]
      have hmoved : s₁.Owns h' := by
        refine (hall h (by simp [heq])).move (fun k p r hh hmem => ?_) hm
        exact hkeeps k p r (hself.trans (congrArg some hh)) hmem
      rw [heq] at hall
      refine forall_exchange (t := h) (fun u hu => Owns.of_current hm.current (hall u hu)) ?_
      exact Owns.of_current rfl hmoved

/-- **Problems solved one after another are kept apart**: in every run whose steps keep them apart, no
step of a handler with a result for problem `k` touches another problem. -/
theorem apart {cfg : HeuristicConfig} {wt : WorkerTracker} {files : List (CNFData × List Cube)}
    {s s' : Batch} {act : BatchAction} (hr : Reaches step KeepsApart (init cfg wt files) s)
    (hkeeps : s.KeepsApart act) (hs : s.step act = some s') : s.LeavesOthers s' act := by
  rintro i c h k rfl hget horigin j hj
  cases move_of_step hs with
  | @handler pre h₀ post s₁ h' _ heq hm =>
      obtain rfl : h₀ = h := by simpa [heq] using hget
      have howns := owns hr h₀ (List.mem_of_getElem? hget)
      show (s.problem j).Untouched (s₁.problem j)
      cases hm with
      | @submitResult k' p g m g' hm =>
          obtain rfl : k' = k := Option.some.inj horigin
          refine howns.untouched (fun r hr hmem => ?_) hm hj
          exact (hkeeps k' p r (by rw [hget, hr]) hmem).1
      | refused _ _ _ => exact Problem.Untouched.refl _
      | submitting _ _ _ _ => exact Problem.Untouched.refl _
      | _ => cases horigin

/-- **Every result comes in time**: its handler takes its snapshot while the task manager that created its
payload is the current one, and what it is to be entered in has not been reset when it is accepted, nor
is reset while it has still to be entered. -/
def InTime (s : Batch) : BatchAction → Prop
  | .solve => ∀ k f fields cubes files, s.solve = .reset k (f :: fields) cubes files →
      ∀ h ∈ s.handlers, f ∉ h.due
  | .handler i _ =>
      (∀ k r, s.handlers[i]? = some (.submitting k r) → s.current .taskManager = k) ∧
        ∀ k p r, s.handlers[i]? = some (.submitResult k p (.remove r)) →
          r.taskId ∈ (s.problem p).taskManager.checkbook → ∀ f ∈ r.due, s.current f = k
  | _ => True

/-- **Results that come in time find no entry but their own**, so their runs keep problems apart. -/
theorem keepsApart_of_inTime {cfg : HeuristicConfig} {wt : WorkerTracker}
    {files : List (CNFData × List Cube)} {s : Batch} (hr : Reaches step InTime (init cfg wt files) s) :
    Reaches step KeepsApart (init cfg wt files) s := by
  have hown : ∀ {t : Batch}, Reaches step InTime (init cfg wt files) t →
      ∀ h ∈ t.handlers, ∀ k p g, h = .submitResult k p g → p = k := by
    intro t hr
    refine hr.invariant (fun t => ∀ h ∈ t.handlers, ∀ k p g, h = .submitResult k p g → p = k)
      (fun h hh => absurd hh List.not_mem_nil) ?_
    intro s act s' hall htime hs
    cases move_of_step hs with
    | reset _ _ hhandlers => rwa [hhandlers]
    | solve _ hhandlers => rwa [hhandlers]
    | getTask w => exact forall_arrive hall fun _ _ _ => BatchHandler.noConfusion
    | submitResult i k r => exact forall_arrive hall fun _ _ _ => BatchHandler.noConfusion
    | @handler pre h post s₁ h' c heq hm =>
        have hself : s.handlers[pre.length]? = some h := by simp [heq]
        have hmoved : ∀ k p g, h' = .submitResult k p g → p = k := by
          intro k p g hh'
          cases hm with
          | refused k' r hnil =>
              obtain ⟨rfl, rfl, -⟩ := BatchHandler.submitResult.inj hh'
              exact hnil.symm.trans (htime.1 k' r hself)
          | submitting k' r _ _ =>
              obtain ⟨rfl, rfl, -⟩ := BatchHandler.submitResult.inj hh'
              exact htime.1 k' r hself
          | @submitResult k' p' g' m g'' hm =>
              obtain ⟨rfl, rfl, -⟩ := BatchHandler.submitResult.inj hh'
              exact hall _ (List.mem_of_getElem? hself) _ _ _ rfl
          | _ => exact BatchHandler.noConfusion hh'
        rw [heq] at hall
        exact forall_exchange hall hmoved
  refine hr.mono' fun t act hrt htime => ?_
  cases act with
  | solve => exact htime
  | handler i c =>
      intro k p r hget hmem
      exact ⟨hown hrt _ (List.mem_of_getElem? hget) k p _ rfl, htime.2 k p r hget hmem⟩
  | _ => trivial

/-! ### Two files -/

/-- `KeepsApart`, evaluated. -/
def keepsApartCheck (s : Batch) : BatchAction → Bool
  | .solve =>
      match s.solve with
      | .reset _ (f :: _) _ _ => s.handlers.all fun h => decide (f ∉ h.due)
      | _ => true
  | .handler i _ =>
      match s.handlers[i]? with
      | some (.submitResult k p (.remove r)) =>
          decide (r.taskId ∉ (s.problem p).taskManager.checkbook.keys) ||
            (p == k && r.due.all fun f => s.current f == k)
      | _ => true
  | _ => true

theorem keepsApart_of_check {s : Batch} {act : BatchAction} (h : s.keepsApartCheck act = true) :
    s.KeepsApart act := by
  cases act with
  | solve =>
      intro k f fields cubes files hsolve x hx
      simp only [keepsApartCheck, hsolve] at h
      exact of_decide_eq_true (List.all_eq_true.mp h x hx)
  | handler i c =>
      intro k p r hget hmem
      simp only [keepsApartCheck, hget, Bool.or_eq_true, Bool.and_eq_true, beq_iff_eq] at h
      obtain ⟨hp, hdue⟩ := h.resolve_left fun hnot => of_decide_eq_true hnot (AList.mem_keys.mp hmem)
      exact ⟨hp, fun f hf => by simpa using List.all_eq_true.mp hdue f hf⟩
  | _ => trivial

/-- The same formula twice, as `main` hands it to `Solve`. -/
def twoFiles : Batch :=
  init defaultConfig .new (List.replicate 2
    (sevenVars, initialCubes fun _ => freqTable sevenVars.clauses))

/-- `Solve` has enqueued the first cube of the first file; it is solved and its result found to be the
last one, and one more cube is enqueued. -/
def firstDone : List BatchAction :=
  [List.replicate 15 .solve, [.getTask workerA], List.replicate 7 (.handler 0 .go),
    [.submitResult 0 (answer 1 "1")], List.replicate 9 (.handler 1 .go), List.replicate 4 .solve].flatten

/-- `Solve` enqueues what is left of the first file, returns, and enqueues two cubes of the second. -/
def nextFile : List BatchAction := List.replicate 271 .solve

theorem apart_secondFile :
    ∃ s s' : Batch, s.step (.handler 3 .go) = some s' ∧ (s.problem 2).totalCount = 0 ∧
      (s'.problem 2).totalCount = 1 ∧ s.LeavesOthers s' (.handler 3 .go) := by
  have hrun : (exec (fun s a => if keepsApartCheck s a then Batch.step s a else none) twoFiles
      (firstDone ++ nextFile ++ [.getTask workerA] ++ List.replicate 7 (.handler 2 .go) ++
        [.submitResult 2 (answer 1 "1")] ++ List.replicate 4 (.handler 3 .go))).map (fun s =>
      ((s.problem 2).totalCount, s.keepsApartCheck (.handler 3 .go),
        (s.step (.handler 3 .go)).map fun s' => (s'.problem 2).totalCount)) =
      some (0, true, some 1) := by
    decide +kernel
  obtain ⟨s, hs, htriple⟩ := Option.map_eq_some_iff.mp hrun
  obtain ⟨hbefore, hpair⟩ := Prod.mk.inj htriple
  obtain ⟨hcheck, hafter⟩ := Prod.mk.inj hpair
  obtain ⟨s', hstep, hafter⟩ := Option.map_eq_some_iff.mp hafter
  have hr := Reaches.of_exec_checked (fun _ _ => keepsApart_of_check) hs
  exact ⟨s, s', hstep, hbefore, hafter, apart hr (keepsApart_of_check hcheck) hstep⟩

/-- **A late result hits the next problem.**  A worker takes task 2 of the first file and submits it
during the second file: its handler removes task 2 of the second file. -/
theorem mixes :
    ∃ s s' : Batch, Reachable Batch.step twoFiles s ∧ s.step (.handler 3 .go) = some s' ∧
      ¬s.LeavesOthers s' (.handler 3 .go) := by
  have hrun : (exec Batch.step twoFiles
      (firstDone ++ [.getTask workerA] ++ List.replicate 7 (.handler 2 .go) ++ nextFile ++
        [.submitResult 2 (answer 2 "1"), .handler 3 .go])).map (fun s =>
      ((s.handlers[3]?.bind BatchHandler.origin), (s.problem 2).taskManager.checkbook.keys,
        (s.step (.handler 3 .go)).map fun s' => (s'.problem 2).taskManager.checkbook.keys)) =
      some (some 1, [2, 1], some [1]) := by
    decide +kernel
  obtain ⟨s, hs, htriple⟩ := Option.map_eq_some_iff.mp hrun
  obtain ⟨horigin, hpair⟩ := Prod.mk.inj htriple
  obtain ⟨hbefore, hafter⟩ := Prod.mk.inj hpair
  obtain ⟨s', hstep, hafter⟩ := Option.map_eq_some_iff.mp hafter
  obtain ⟨h, hget, horigin⟩ := Option.bind_eq_some_iff.mp horigin
  refine ⟨s, s', Reaches.of_exec (fun _ _ _ => trivial) hs, hstep, fun hleaves => ?_⟩
  have hmem : 2 ∈ (s.problem 2).taskManager.checkbook := by
    rw [AList.mem_keys, hbefore]
    exact List.mem_cons_self
  have hkept := (hleaves 3 .go h 1 rfl hget horigin 2 (by decide)).checkbook 2 hmem
  rw [AList.mem_keys, hafter] at hkept
  exact absurd hkept (by decide)

end Batch

end HydraSAT.Master
