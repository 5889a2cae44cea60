import Mathlib.Data.ZMod.Basic
import HydraSAT.Master.Ledger

/-!
# Announcing completion

`SubmitResult` announces the end of a problem when `IsEmpty` reads no active task and an empty
queue.  A task leaves the count of active tasks when it is removed, long before its count is added
or its children are entered, so the announcement can come early (`System.announces_early`).  It
does not when nothing is on its way at the moment the first read succeeds (`System.QuietAt`):

* `System.active_balance`: the counter is the number of tasks in the checkbook, the two windows
  between table and counter apart;
* `System.leaves_balance`: every accepted leaf count is added or with its handler;
* `Settled.step`: once nothing is on its way, nothing will be;
* `System.announces_drained`: in quiet runs an announcement finds everything done, and `Solve`
  returns the sum of all leaf counts.
-/

namespace HydraSAT.Master

open HydraSAT.Lib

/-! ### The counter of active tasks -/

/-- The wrap of a register is invisible modulo its size. -/
theorem cast_int32 (x : ℤ) : ((int32 x : ℤ) : ZMod 4294967296) = (x : ZMod 4294967296) := by
  rw [ZMod.intCast_eq_intCast_iff]
  show int32 x % 4294967296 = x % 4294967296
  unfold int32
  omega

/-- Tasks in the checkbook, less tasks counted active. -/
def TaskManager.surplus (tm : TaskManager) : ZMod 4294967296 :=
  (tm.checkbook.keys.length : ZMod 4294967296) - (tm.activeTasks : ZMod 4294967296)

/-- The handler has taken a task out of the checkbook and not out of the counter. -/
def SubmitResult.releasing : SubmitResult → ℤ
  | .release _ _ _ => 1
  | _ => 0

/-- What a handler holds of the difference between checkbook and counter. -/
def Handler.surplus : Handler → ZMod 4294967296
  | .getTask _ => 0
  | .submitResult h => ((h.releasing - h.call.uncounted : ℤ) : ZMod 4294967296)

/-- What `Solve` holds of that difference. -/
def Solve.surplus (p : Solve) : ZMod 4294967296 := ((-p.call.uncounted : ℤ) : ZMod 4294967296)

theorem TaskManager.surplus_addActive (tm : TaskManager) (d : ℤ) :
    (tm.addActive d).surplus = tm.surplus - (d : ZMod 4294967296) := by
  show _ - ((int32 (tm.activeTasks + d) : ℤ) : ZMod 4294967296) = _
  rw [cast_int32, Int.cast_add, ← sub_sub]
  rfl

theorem TaskManager.length_enter {tm : TaskManager} {id : ℤ} (cube : Cube) (hfresh : id ∉ tm.checkbook) :
    (tm.enter id cube).checkbook.keys.length = tm.checkbook.keys.length + 1 := by
  show (tm.checkbook.insert id ⟨cube, ""⟩).keys.length = _
  rw [AList.keys_insert, List.length_cons,
    List.erase_of_not_mem fun hmem => hfresh (AList.mem_keys.mpr hmem)]

theorem TaskManager.length_deleteTask {tm : TaskManager} {id : ℤ} {entry : TaskEntry}
    (hl : tm.checkbook.lookup id = some entry) :
    (tm.deleteTask id).checkbook.keys.length + 1 = tm.checkbook.keys.length := by
  have hmem : id ∈ tm.checkbook.keys := AList.mem_keys.mp (AList.lookup_isSome.mp (by rw [hl]; rfl))
  have hdel : tm.deleteTask id = { tm with checkbook := tm.checkbook.erase id, mu := true } := by
    unfold TaskManager.deleteTask
    rw [hl]
  rw [hdel]
  show (tm.checkbook.erase id).keys.length + 1 = _
  rw [AList.keys_erase, List.length_erase_of_mem hmem]
  exact Nat.sub_add_cancel (List.length_pos_of_mem hmem)

theorem TaskManager.length_recordAssignment (tm : TaskManager) (id : ℤ) (hostname : String) :
    (tm.recordAssignment id hostname).checkbook.keys.length = tm.checkbook.keys.length := by
  unfold TaskManager.recordAssignment
  split
  · rename_i e he
    have hmem : id ∈ tm.checkbook.keys := AList.mem_keys.mp (AList.lookup_isSome.mp (by rw [he]; rfl))
    show (tm.checkbook.insert id _).keys.length = _
    rw [AList.keys_insert, (List.perm_cons_erase hmem).symm.length_eq]
  · rfl

theorem TaskManager.surplus_enter {tm : TaskManager} {id : ℤ} (cube : Cube)
    (hfresh : id ∉ tm.checkbook) : (tm.enter id cube).surplus = tm.surplus + 1 := by
  rw [TaskManager.surplus, TaskManager.length_enter cube hfresh, Nat.cast_add, Nat.cast_one,
    add_sub_right_comm]
  rfl

theorem TaskManager.surplus_deleteTask {tm : TaskManager} {id : ℤ} {entry : TaskEntry}
    (hl : tm.checkbook.lookup id = some entry) : (tm.deleteTask id).surplus = tm.surplus - 1 := by
  have hactive : (tm.deleteTask id).activeTasks = tm.activeTasks := by
    unfold TaskManager.deleteTask
    split <;> rfl
  rw [TaskManager.surplus, TaskManager.surplus, hactive, ← TaskManager.length_deleteTask hl, Nat.cast_add,
    Nat.cast_one]
  ring

theorem TaskManager.surplus_recordAssignment (tm : TaskManager) (id : ℤ) (hostname : String) :
    (tm.recordAssignment id hostname).surplus = tm.surplus := by
  have hactive : (tm.recordAssignment id hostname).activeTasks = tm.activeTasks := by
    unfold TaskManager.recordAssignment
    split <;> rfl
  rw [TaskManager.surplus, TaskManager.surplus, hactive, TaskManager.length_recordAssignment]

theorem enqueueStep_surplus {tm tm' : TaskManager} {e e' : EnqueueCubes}
    (hfresh : ∀ x ∈ e.drawn, x ∉ tm.checkbook) (h : enqueueStep tm e = some (tm', e')) :
    tm'.surplus + ((-e'.uncounted : ℤ) : ZMod 4294967296) =
      tm.surplus + ((-e.uncounted : ℤ) : ZMod 4294967296) := by
  rcases enqueueStep_cases h with ⟨cube, rest, rfl, rfl, rfl⟩ | ⟨id, cube, rest, rfl, -, rfl, rfl⟩ |
    ⟨id, cube, rest, rfl, rfl, rfl⟩ | ⟨task, rest, rfl, -, rfl, rfl⟩
  · rfl
  · rw [TaskManager.surplus_enter cube (hfresh id (by simp [EnqueueCubes.drawn]))]
    simp [EnqueueCubes.uncounted]
  · rw [TaskManager.surplus_addActive]
    simp [EnqueueCubes.uncounted, sub_eq_add_neg]
  · rfl

theorem HandlerMove.surplus {s s' : MasterServer} {h h' : Handler} (hm : HandlerMove s h s' h')
    (hfresh : ∀ x ∈ h.call.drawn, x ∉ s.taskManager.checkbook) :
    s'.taskManager.surplus + h'.surplus = s.taskManager.surplus + h.surplus := by
  cases hm with
  | getTask hg =>
      cases hg with
      | record w task _ =>
          exact congrArg (· + 0) (s.taskManager.surplus_recordAssignment task.taskId w.hostname)
      | _ => rfl
  | submitResult hm =>
      cases hm with
      | accept r entry _ hl =>
          show (s.taskManager.deleteTask r.taskId).surplus + ((1 - 0 : ℤ) : ZMod 4294967296) =
            s.taskManager.surplus + ((0 - 0 : ℤ) : ZMod 4294967296)
          rw [TaskManager.surplus_deleteTask hl]
          simp
      | release r hostname cube =>
          show (s.taskManager.addActive (-1)).surplus + ((0 - 0 : ℤ) : ZMod 4294967296) =
            s.taskManager.surplus + ((1 - 0 : ℤ) : ZMod 4294967296)
          rw [TaskManager.surplus_addActive]
          simp
      | enqueue r cube newCubes e tm' e' he =>
          have hmoved := @enqueueStep_surplus _ tm' e e' hfresh he
          simpa [Handler.surplus, SubmitResult.releasing, SubmitResult.call] using hmoved
      | _ => rfl

section Runs

variable {cfg : HeuristicConfig} {workers : WorkerTracker} {cnf : CNFData} {cubes : List Cube}
  {guard : System → Action → Prop} {s : System}

/-- **The counter counts the checkbook**, up to the handlers and calls between the two. -/
theorem System.active_balance (hr : Reaches System.step guard (.init cfg workers cnf cubes) s) :
    s.total (fun m => m.taskManager.surplus) Solve.surplus Handler.surplus = 0 := by
  refine hr.invariant'
    (fun s => System.total (fun m => m.taskManager.surplus) Solve.surplus Handler.surplus s = 0)
    (by simp [System.total, System.init, TaskManager.surplus, TaskManager.new, Solve.surplus,
      Solve.call, EnqueueCubes.uncounted]) ?_
  intro s act s' hr hzero _ hs
  have hle := fun x => System.listed_le hr.reachable x
  refine (System.total_step hs (fun _ => rfl) (fun _ => ?_) ?_ ?_).trans hzero
  · exact Int.cast_zero
  · intro q server p _ hq hp
    cases hp with
    | load e tm' e' he =>
        refine enqueueStep_surplus (fun x hx => ?_) he
        exact System.fresh (hle x) (Or.inl (by rw [hq]; exact hx))
    | _ => rfl
  · intro i c h server h' _ hi hm
    refine hm.surplus fun x hx => ?_
    exact System.fresh (hle x) (Or.inr ⟨h, List.mem_of_getElem? hi, hx⟩)

end Runs

/-! ### The counts of leaves -/

/-- The id and the value of a result that is no timeout and carries a number. -/
def TaskResult.leaf (r : TaskResult) : Option (ℤ × ℤ) :=
  if r.timedOut then none else (setString10 r.count).map fun val => (r.taskId, val)

/-- The leaf counts a handler still has to add. -/
def SubmitResult.owes : SubmitResult → List (ℤ × ℤ)
  | .release r _ _ => r.leaf.toList
  | .updateWorker r _ _ => r.leaf.toList
  | .addCount r _ val => [(r.taskId, val)]
  | _ => []

/-- `owes`, for any handler. -/
def Handler.owes : Handler → List (ℤ × ℤ)
  | .getTask _ => []
  | .submitResult h => h.owes

/-- How often the leaf `x` was added, less how often it was accepted. -/
def MasterServer.added (x : ℤ × ℤ) (s : MasterServer) : ℤ :=
  ((s.history.counted.map fun e => (e.1, e.2.2)).count x : ℤ) -
    ((s.history.accepted.filterMap TaskResult.leaf).count x : ℤ)

theorem MasterServer.added_addCount (x : ℤ × ℤ) (s : MasterServer) (r : TaskResult) (cube : Cube)
    (val : ℤ) : (s.addCount r cube val).added x + 0 = s.added x + ([(r.taskId, val)].count x : ℤ) := by
  have hmap : (s.addCount r cube val).history.counted.map (fun e => (e.1, e.2.2)) =
      s.history.counted.map (fun e => (e.1, e.2.2)) ++ [(r.taskId, val)] := List.map_append
  have hacc : (s.addCount r cube val).history.accepted = s.history.accepted := rfl
  unfold MasterServer.added
  rw [hmap, hacc, List.count_append, Nat.cast_add]
  omega

theorem MasterServer.added_accept (x : ℤ × ℤ) (s : MasterServer) (r : TaskResult) :
    (s.accept r).added x = s.added x - (r.leaf.toList.count x : ℤ) := by
  have hone : [r].filterMap TaskResult.leaf = r.leaf.toList := by
    cases hleaf : r.leaf <;> simp [hleaf]
  have hmap : (s.accept r).history.accepted.filterMap TaskResult.leaf =
      s.history.accepted.filterMap TaskResult.leaf ++ r.leaf.toList := by
    rw [← hone]
    exact List.filterMap_append
  have hcnt : (s.accept r).history.counted = s.history.counted := rfl
  unfold MasterServer.added
  rw [hmap, hcnt, List.count_append, Nat.cast_add]
  omega

theorem HandlerMove.added {s s' : MasterServer} {h h' : Handler} (hm : HandlerMove s h s' h')
    (x : ℤ × ℤ) : s'.added x + (h'.owes.count x : ℤ) = s.added x + (h.owes.count x : ℤ) := by
  cases hm with
  | getTask hg => cases hg <;> rfl
  | submitResult hm =>
      cases hm with
      | accept r entry _ _ =>
          show (s.accept r).added x + (r.leaf.toList.count x : ℤ) = s.added x + 0
          rw [s.added_accept]
          omega
      | timedOut r hostname cube hto =>
          show s.added x + 0 = s.added x + (r.leaf.toList.count x : ℤ)
          rw [TaskResult.leaf, if_pos hto]
          rfl
      | parsed r hostname cube val hto hval =>
          show s.added x + ([(r.taskId, val)].count x : ℤ) = s.added x + (r.leaf.toList.count x : ℤ)
          rw [TaskResult.leaf, if_neg (by simp [hto]), hval]
          rfl
      | unparsed r hostname cube hto hval =>
          show s.added x + 0 = s.added x + (r.leaf.toList.count x : ℤ)
          rw [TaskResult.leaf, if_neg (by simp [hto]), hval]
          rfl
      | addMeasured r cube val _ => exact s.added_addCount x r cube val
      | addUnmeasured r cube val _ => exact s.added_addCount x r cube val
      | _ => rfl

section Runs

variable {cfg : HeuristicConfig} {workers : WorkerTracker} {cnf : CNFData} {cubes : List Cube}
  {guard : System → Action → Prop} {s : System}

/-- **Every accepted leaf is added or with its handler.** -/
theorem System.leaves_balance (x : ℤ × ℤ)
    (hr : Reaches System.step guard (.init cfg workers cnf cubes) s) :
    s.total (fun m => m.added x) (fun _ => 0) (fun h => (h.owes.count x : ℤ)) = 0 := by
  refine hr.invariant (fun s => System.total (fun m => m.added x) (fun _ => 0)
    (fun h => (h.owes.count x : ℤ)) s = 0) rfl ?_
  intro s act s' hzero _ hs
  refine (System.total_step hs (fun _ => rfl) (fun _ => rfl) ?_ ?_).trans hzero
  · intro q server p _ _ hp
    cases hp <;> rfl
  · intro i c h server h' _ _ hm
    exact hm.added x

end Runs

/-! ### Settled states -/

/-- The handler has removed a task and has neither added its count nor sent its last child. -/
def SubmitResult.inWindow : SubmitResult → Bool
  | .release _ _ _ => true
  | .updateWorker _ _ _ => true
  | .countTimeout _ _ => true
  | .split _ _ => true
  | .enqueue _ _ _ e => !e.finished
  | .addCount _ _ _ => true
  | _ => false

/-- `inWindow`, for any handler. -/
def Handler.inWindow : Handler → Bool
  | .getTask _ => false
  | .submitResult h => h.inWindow

/-- `Solve` still has a cube to enqueue. -/
def Solve.enqueues : Solve → Bool
  | .broadcast _ => true
  | .countTotal _ => true
  | .load e => !e.finished
  | _ => false

/-- Nothing is outstanding and nothing is on its way. -/
structure System.Settled (s : System) : Prop where
  loaded : s.solve.enqueues = false
  quiet : ∀ h ∈ s.handlers, h.inWindow = false
  empty : s.server.taskManager.checkbook = ∅

/-- What does not change any more once the master is settled. -/
structure MasterServer.Same (s s' : MasterServer) : Prop where
  checkbook : s'.taskManager.checkbook = s.taskManager.checkbook
  totalCount : s'.totalCount = s.totalCount
  queue : s.taskManager.taskQueue = [] → s'.taskManager.taskQueue = []

theorem EnqueueCubes.eq_of_finished {e : EnqueueCubes} (h : (!e.finished) = false) : e = .loop [] := by
  cases e with
  | loop rest =>
      cases rest with
      | nil => rfl
      | cons cube rest => exact Bool.noConfusion h
  | insert id cube rest => exact Bool.noConfusion h
  | activate id cube rest => exact Bool.noConfusion h
  | send task rest => exact Bool.noConfusion h

theorem GetTaskMove.same {s s' : MasterServer} {h h' : GetTask} (hm : GetTaskMove s h s' h')
    (hempty : s.taskManager.checkbook = ∅) : s.Same s' := by
  cases hm with
  | dequeue w task rest hq => exact ⟨rfl, rfl, fun hnil => by rw [hq] at hnil; simp at hnil⟩
  | record w task _ =>
      have hnone : s.taskManager.recordAssignment task.taskId w.hostname = s.taskManager := by
        unfold TaskManager.recordAssignment
        rw [hempty]
        rfl
      exact ⟨by rw [hnone], rfl, fun hnil => by rw [hnone]; exact hnil⟩
  | _ => exact ⟨rfl, rfl, id⟩

theorem SubmitMove.same {s s' : MasterServer} {h h' : SubmitResult} (hm : SubmitMove s h s' h')
    (hempty : s.taskManager.checkbook = ∅) (hquiet : h.inWindow = false) :
    s.Same s' ∧ h'.inWindow = false := by
  cases hm with
  | accept r entry _ hl =>
      rw [hempty] at hl
      exact absurd hl (by simp)
  | release r hostname cube => exact Bool.noConfusion hquiet
  | timedOut r hostname cube _ => exact Bool.noConfusion hquiet
  | parsed r hostname cube val _ _ => exact Bool.noConfusion hquiet
  | unparsed r hostname cube _ _ => exact Bool.noConfusion hquiet
  | countTimeout r cube => exact Bool.noConfusion hquiet
  | split r cube entries _ => exact Bool.noConfusion hquiet
  | enqueue r cube newCubes e tm' e' he =>
      rw [EnqueueCubes.eq_of_finished hquiet] at he
      exact absurd he (by simp [enqueueStep])
  | addMeasured r cube val _ => exact Bool.noConfusion hquiet
  | addUnmeasured r cube val _ => exact Bool.noConfusion hquiet
  | _ => exact ⟨⟨rfl, rfl, id⟩, rfl⟩

theorem SolveMove.same {s s' : MasterServer} {p p' : Solve} (hm : SolveMove s p s' p')
    (hloaded : p.enqueues = false) : s.Same s' ∧ p'.enqueues = false := by
  cases hm with
  | broadcast cubes => exact Bool.noConfusion hloaded
  | countTotal cubes => exact Bool.noConfusion hloaded
  | load e tm' e' he =>
      rw [EnqueueCubes.eq_of_finished hloaded] at he
      exact absurd he (by simp [enqueueStep])
  | _ => exact ⟨⟨rfl, rfl, id⟩, rfl⟩

theorem HandlerMove.same {s s' : MasterServer} {h h' : Handler} (hm : HandlerMove s h s' h')
    (hempty : s.taskManager.checkbook = ∅) (hquiet : h.inWindow = false) :
    s.Same s' ∧ h'.inWindow = false := by
  cases hm with
  | getTask hg => exact ⟨hg.same hempty, rfl⟩
  | submitResult hm => exact hm.same hempty hquiet

/-- **Once settled, always settled**: no step then changes the checkbook or the total, or fills the
queue. -/
theorem System.Settled.step {s s' : System} {act : Action} (h : s.Settled)
    (hs : s.step act = some s') : s'.Settled ∧ s.server.Same s'.server := by
  cases System.move_of_step hs with
  | solve hp =>
      obtain ⟨hsame, hloaded⟩ := hp.same h.loaded
      exact ⟨⟨hloaded, h.quiet, hsame.checkbook.trans h.empty⟩, hsame⟩
  | getTask w => exact ⟨⟨h.loaded, forall_arrive h.quiet rfl, h.empty⟩, ⟨rfl, rfl, id⟩⟩
  | submitResult r => exact ⟨⟨h.loaded, forall_arrive h.quiet rfl, h.empty⟩, ⟨rfl, rfl, id⟩⟩
  | @handler pre g post server g' c heq hm =>
      obtain ⟨hsame, hquiet⟩ := hm.same h.empty (h.quiet g (by simp [heq]))
      have hall := h.quiet
      rw [heq] at hall
      exact ⟨⟨h.loaded, forall_exchange hall hquiet, hsame.checkbook.trans h.empty⟩, hsame⟩

/-! ### The announcement -/

/-- When a handler reads that no task is active, nothing is on its way: `Solve` has no cube left to
enqueue, no handler is between the removal of a task and the end of its accounting, and the tasks in
the checkbook do not make the counter wrap. -/
def System.QuietAt (s : System) (act : Action) : Prop :=
  ∀ i c r, act = .handler i c → s.handlers[i]? = some (.submitResult (.readActive r)) →
    s.server.taskManager.isEmptyActive = true →
    s.solve.enqueues = false ∧ (∀ h ∈ s.handlers, h.inWindow = false) ∧
      s.server.taskManager.checkbook.keys.length < 4294967296

/-- Parseable counts, and reads of the counter while nothing is on its way. -/
def System.Quiet (s : System) (act : Action) : Prop := s.ParsesAt act ∧ s.QuietAt act

theorem SubmitResult.call_of_quiet {h : SubmitResult} (hquiet : h.inWindow = false) :
    h.call = .loop [] := by
  cases h with
  | enqueue r cube newCubes e => exact EnqueueCubes.eq_of_finished hquiet
  | _ => rfl

theorem Handler.surplus_of_quiet {h : Handler} (hquiet : h.inWindow = false) : h.surplus = 0 := by
  cases h with
  | getTask _ => rfl
  | submitResult h =>
      have hcall := SubmitResult.call_of_quiet hquiet
      have hrel : h.releasing = 0 := by
        cases h with
        | release r hostname cube => exact Bool.noConfusion hquiet
        | _ => rfl
      rw [Handler.surplus, hcall, hrel]
      exact Int.cast_zero

theorem Handler.owes_of_quiet {h : Handler} (hquiet : h.inWindow = false) : h.owes = [] := by
  cases h with
  | getTask _ => rfl
  | submitResult h =>
      cases h with
      | release r hostname cube => exact Bool.noConfusion hquiet
      | updateWorker r hostname cube => exact Bool.noConfusion hquiet
      | addCount r cube val => exact Bool.noConfusion hquiet
      | _ => rfl

theorem Solve.surplus_of_loaded {p : Solve} (hloaded : p.enqueues = false) : p.surplus = 0 := by
  cases p with
  | load e =>
      rw [EnqueueCubes.eq_of_finished hloaded]
      exact Int.cast_zero
  | _ => exact Int.cast_zero

/-- A map without keys is empty. -/
theorem eq_empty_of_keys {m : AList fun _ : ℤ => TaskEntry} (h : m.keys.length = 0) : m = ∅ := by
  have hentries : m.entries = [] := by
    rw [AList.keys, List.keys, List.length_map] at h
    exact List.length_eq_zero_iff.mp h
  exact AList.ext hentries

/-- **A quiet read is right**: where nothing is on its way, a counter that reads zero means an empty
checkbook. -/
theorem System.settled_of_quiet {s : System}
    (hbal : s.total (fun m => m.taskManager.surplus) Solve.surplus Handler.surplus = 0)
    (hactive : s.server.taskManager.isEmptyActive = true) (hloaded : s.solve.enqueues = false)
    (hquiet : ∀ h ∈ s.handlers, h.inWindow = false)
    (hsize : s.server.taskManager.checkbook.keys.length < 4294967296) : s.Settled := by
  have hsum : (s.handlers.map Handler.surplus).sum = 0 := by
    refine List.sum_eq_zero fun x hx => ?_
    obtain ⟨h, hh, rfl⟩ := List.mem_map.mp hx
    exact Handler.surplus_of_quiet (hquiet h hh)
  have hzero : s.server.taskManager.activeTasks = 0 := by simpa [TaskManager.isEmptyActive] using hactive
  have hlen : (s.server.taskManager.checkbook.keys.length : ZMod 4294967296) = 0 := by
    rw [System.total, Solve.surplus_of_loaded hloaded, hsum, TaskManager.surplus, hzero] at hbal
    simpa using hbal
  have hdvd := (ZMod.natCast_eq_zero_iff _ _).mp hlen
  exact ⟨hloaded, hquiet, eq_empty_of_keys (Nat.eq_zero_of_dvd_of_lt hdvd hsize)⟩

/-- The handler has read that no task is active. -/
def Handler.sawIdle : Handler → Bool
  | .submitResult (.readQueue _) => true
  | .submitResult (.announce _) => true
  | _ => false

/-- The handler is about to send on `s.done`. -/
def Handler.announces : Handler → Bool
  | .submitResult (.announce _) => true
  | _ => false

theorem Handler.sawIdle_of_announces {h : Handler} (hann : h.announces = true) : h.sawIdle = true := by
  cases h with
  | getTask _ => exact Bool.noConfusion hann
  | submitResult h =>
      cases h with
      | announce r => rfl
      | _ => exact Bool.noConfusion hann

/-- `Solve` has received from `s.done`. -/
def Solve.woken : Solve → Bool
  | .logResult => true
  | .returned _ => true
  | _ => false

/-- What an announcement has seen and what follows it. -/
structure System.Announced (s : System) : Prop where
  saw : ∀ h ∈ s.handlers, h.sawIdle = true → s.Settled
  sent : s.server.done = true → s.Settled
  woken : s.solve.woken = true → s.Settled
  queue : ∀ h ∈ s.handlers, h.announces = true → s.server.taskManager.taskQueue = []
  returned : ∀ count, s.solve = .returned count → count = s.server.totalCount

theorem SolveMove.returned {s s' : MasterServer} {p : Solve} {count : ℤ}
    (hm : SolveMove s p s' (.returned count)) : count = s'.totalCount := by
  cases hm with
  | logResult => rfl

theorem SolveMove.asleep {s s' : MasterServer} {p p' : Solve} (hm : SolveMove s p s' p')
    (hdone : s.done = false) (hwoken : p.woken = false) : s'.done = false ∧ p'.woken = false := by
  cases hm with
  | receive htrue =>
      rw [hdone] at htrue
      exact Bool.noConfusion htrue
  | logResult => exact Bool.noConfusion hwoken
  | _ => exact ⟨hdone, rfl⟩

theorem HandlerMove.done {s s' : MasterServer} {h h' : Handler} (hm : HandlerMove s h s' h')
    (hdone : s.done = false) (hsaw : h.sawIdle = false) : s'.done = false := by
  cases hm with
  | getTask hg => cases hg <;> exact hdone
  | submitResult hm =>
      cases hm with
      | announce r => exact Bool.noConfusion hsaw
      | _ => exact hdone

theorem HandlerMove.announces {s s' : MasterServer} {h h' : Handler} (hm : HandlerMove s h s' h')
    (hann : h'.announces = true) : s.taskManager.isEmptyQueue = true := by
  cases hm with
  | getTask hg => exact Bool.noConfusion hann
  | submitResult hm =>
      cases hm with
      | noneQueued r hempty => exact hempty
      | _ => exact Bool.noConfusion hann

/-- An announcement is preceded by a quiet read. -/
theorem System.Announced.step_settled {s s' : System} {act : Action} (h : s.Announced)
    (hset : s.Settled) (hs : s.step act = some s') : s'.Announced := by
  obtain ⟨hset', hsame⟩ := hset.step hs
  refine ⟨fun _ _ _ => hset', fun _ => hset', fun _ => hset', ?_, ?_⟩
  · refine System.handlers_step hs (fun _ hann => Bool.noConfusion hann)
      (fun _ hann => Bool.noConfusion hann) ?_ fun g hg hann => hsame.queue (h.queue g hg hann)
    intro i c g server g' _ _ _ hm hann
    exact hsame.queue (List.isEmpty_iff.mp (hm.announces hann))
  · intro count hcount
    cases System.move_of_step hs with
    | @solve server p hp =>
        obtain rfl : p = .returned count := hcount
        exact hp.returned
    | getTask w => exact h.returned count hcount
    | submitResult r => exact h.returned count hcount
    | handler c heq hm => exact (h.returned count hcount).trans hsame.totalCount.symm

theorem System.Announced.step_unsettled {s s' : System} {act : Action} (h : s.Announced)
    (hbal : s.total (fun m => m.taskManager.surplus) Solve.surplus Handler.surplus = 0)
    (hset : ¬s.Settled) (hg : s.QuietAt act) (hs : s.step act = some s') : s'.Announced := by
  have hsaw : ∀ g ∈ s.handlers, g.sawIdle = false := fun g hg' =>
    Bool.eq_false_iff.mpr fun htrue => hset (h.saw g hg' htrue)
  have hdone : s.server.done = false := Bool.eq_false_iff.mpr fun htrue => hset (h.sent htrue)
  have hwoken : s.solve.woken = false := Bool.eq_false_iff.mpr fun htrue => hset (h.woken htrue)
  have hsaw' : ∀ g ∈ s'.handlers, g.sawIdle = false := by
    refine System.handlers_step hs (fun _ => rfl) (fun _ => rfl) ?_ hsaw
    intro i c g server g' hact hi hold hm
    cases hm with
    | getTask _ => rfl
    | submitResult hm =>
        cases hm with
        | noneActive r hidle =>
            obtain ⟨hloaded, hquiet, hsize⟩ := hg i c r hact hi hidle
            exact absurd (System.settled_of_quiet hbal hidle hloaded hquiet hsize) hset
        | noneQueued r _ => exact Bool.noConfusion hold
        | _ => rfl
  have hasleep : s'.server.done = false ∧ s'.solve.woken = false := by
    cases System.move_of_step hs with
    | solve hp => exact hp.asleep hdone hwoken
    | getTask w => exact ⟨hdone, hwoken⟩
    | submitResult r => exact ⟨hdone, hwoken⟩
    | @handler pre g post server g' c heq hm =>
        exact ⟨hm.done hdone (hsaw g (by simp [heq])), hwoken⟩
  refine ⟨fun g hg' htrue => ?_, fun htrue => ?_, fun htrue => ?_, fun g hg' hann => ?_,
    fun count hcount => ?_⟩
  · rw [hsaw' g hg'] at htrue
    exact Bool.noConfusion htrue
  · rw [hasleep.1] at htrue
    exact Bool.noConfusion htrue
  · rw [hasleep.2] at htrue
    exact Bool.noConfusion htrue
  · have hfalse := hsaw' g hg'
    rw [Handler.sawIdle_of_announces hann] at hfalse
    exact Bool.noConfusion hfalse
  · have hfalse := hasleep.2
    rw [hcount] at hfalse
    exact Bool.noConfusion hfalse

/-! ### Drained states -/

/-- The work of the problem is complete: nothing in the checkbook, nothing on the queue, no cube
left to enqueue, and every accepted result that is no timeout is in the total. -/
structure System.Drained (s : System) : Prop where
  checkbook : s.server.taskManager.checkbook = ∅
  queue : s.server.taskManager.taskQueue = []
  loaded : s.solve.enqueues = false
  enqueued : ∀ h ∈ s.handlers, h.call.finished = true
  added : ∀ r ∈ s.server.history.accepted, r.timedOut = false →
    ∃ e ∈ s.server.history.counted, e.1 = r.taskId ∧ setString10 r.count = some e.2.2

/-- The sum of the counts of all accepted leaves. -/
def MasterServer.leafSum (s : MasterServer) : ℤ :=
  ((s.history.accepted.filterMap TaskResult.leaf).map fun e => e.2).sum

section Runs

variable {cfg : HeuristicConfig} {workers : WorkerTracker} {cnf : CNFData} {cubes : List Cube}
  {guard : System → Action → Prop} {s : System}

/-- **Quiet reads make announcements late enough.** -/
theorem System.announced (hr : Reaches System.step System.QuietAt (.init cfg workers cnf cubes) s) :
    s.Announced := by
  refine hr.invariant' System.Announced ?_ ?_
  · exact ⟨by simp [System.init], fun h => Bool.noConfusion h, fun h => Bool.noConfusion h,
      by simp [System.init], fun _ h => Solve.noConfusion h⟩
  · intro s act s' hr hann hg hs
    by_cases hset : s.Settled
    · exact hann.step_settled hset hs
    · exact hann.step_unsettled (System.active_balance hr) hset hg hs

/-- Accepted results that are no timeouts carry decimal counts. -/
theorem System.accepted_parse
    (hr : Reaches System.step System.ParsesAt (.init cfg workers cnf cubes) s) :
    ∀ r ∈ s.server.history.accepted, r.timedOut = false → (setString10 r.count).isSome = true := by
  refine hr.invariant (fun s => ∀ r ∈ s.server.history.accepted, r.timedOut = false →
    (setString10 r.count).isSome = true) (by simp [System.init]) ?_
  intro s act s' hall hg hs
  cases System.move_of_step hs with
  | solve hp =>
      generalize s.solve = q at hp
      cases hp <;> exact hall
  | getTask w => exact hall
  | submitResult r => exact hall
  | @handler pre g post server g' c heq hm =>
      cases hm with
      | getTask hg' => cases hg' <;> exact hall
      | submitResult hm =>
          cases hm with
          | accept r entry _ hl =>
              have hhere := hg pre.length c r rfl (by simp [heq])
                (AList.lookup_isSome.mp (by rw [hl]; rfl))
              intro r' hr'
              rcases List.mem_append.mp hr' with hr' | hr'
              · exact hall r' hr'
              · rw [List.mem_singleton.mp hr']
                exact hhere
          | _ => exact hall

/-- In a settled state the added counts are those of the accepted leaves. -/
theorem System.Settled.counted (hset : s.Settled)
    (hr : Reaches System.step guard (.init cfg workers cnf cubes) s) :
    (s.server.history.counted.map fun e => (e.1, e.2.2)).Perm
      (s.server.history.accepted.filterMap TaskResult.leaf) := by
  refine List.perm_iff_count.mpr fun x => ?_
  have hbal := System.leaves_balance x hr
  have hsum : (s.handlers.map fun h => (h.owes.count x : ℤ)).sum = 0 := by
    refine List.sum_eq_zero fun n hn => ?_
    obtain ⟨h, hh, rfl⟩ := List.mem_map.mp hn
    rw [Handler.owes_of_quiet (hset.quiet h hh)]
    rfl
  simp only [System.total, hsum, MasterServer.added] at hbal
  omega

theorem System.Settled.totalCount (hset : s.Settled)
    (hr : Reaches System.step guard (.init cfg workers cnf cubes) s) :
    s.server.totalCount = s.server.leafSum := by
  have hperm := ((hset.counted hr).map fun e => e.2).sum_eq
  rw [List.map_map] at hperm
  rw [System.totalCount_eq hr]
  exact hperm

theorem System.Settled.drained (hset : s.Settled) (hqueue : s.server.taskManager.taskQueue = [])
    (hr : Reaches System.step System.ParsesAt (.init cfg workers cnf cubes) s) : s.Drained := by
  refine ⟨hset.empty, hqueue, hset.loaded, fun h hh => ?_, fun r hacc hto => ?_⟩
  · cases h with
    | getTask _ => rfl
    | submitResult h =>
        show h.call.finished = true
        rw [SubmitResult.call_of_quiet (hset.quiet _ hh)]
        rfl
  · obtain ⟨val, hval⟩ := Option.isSome_iff_exists.mp (System.accepted_parse hr r hacc hto)
    have hleaf : r.leaf = some (r.taskId, val) := by
      rw [TaskResult.leaf, if_neg (by simp [hto]), hval]
      rfl
    have hmem := (hset.counted hr).mem_iff.mpr (List.mem_filterMap.mpr ⟨r, hacc, hleaf⟩)
    obtain ⟨e, he, heq⟩ := List.mem_map.mp hmem
    obtain ⟨hid, hv⟩ := Prod.mk.inj heq
    exact ⟨e, he, hid, by rw [hval, hv]⟩

end Runs

/-- **Completion is not announced early in quiet runs**: whoever is about to announce finds all the
work complete, and the count `Solve` returns is the sum of all accepted leaf counts. -/
theorem System.announces_drained {cfg : HeuristicConfig} {workers : WorkerTracker} {cnf : CNFData}
    {cubes : List Cube} {s : System}
    (hr : Reaches System.step System.Quiet (.init cfg workers cnf cubes) s) :
    (∀ h ∈ s.handlers, h.announces = true → s.Drained) ∧
      ∀ count, s.solve = .returned count →
        s.server.taskManager.checkbook = ∅ ∧ count = s.server.leafSum := by
  have hann := System.announced (hr.mono fun _ _ h => h.2)
  have hparse := hr.mono fun _ _ h => h.1
  refine ⟨fun h hh hsend => ?_, fun count hcount => ?_⟩
  · have hsaw := Handler.sawIdle_of_announces hsend
    exact (hann.saw h hh hsaw).drained (hann.queue h hh hsend) hparse
  · have hset := hann.woken (by rw [hcount]; rfl)
    exact ⟨hset.empty, (hann.returned count hcount).trans (hset.totalCount hr)⟩

/-- `Quiet`, evaluated. -/
def System.quietCheck (s : System) : Action → Bool
  | .handler i _ =>
      match s.handlers[i]? with
      | some (.submitResult (.remove r)) => r.timedOut || (setString10 r.count).isSome
      | some (.submitResult (.readActive _)) =>
          !s.server.taskManager.isEmptyActive || !s.solve.enqueues &&
            s.handlers.all (fun h => !h.inWindow) &&
            decide (s.server.taskManager.checkbook.keys.length < 4294967296)
      | _ => true
  | _ => true

theorem System.quiet_of_check {s : System} {act : Action} (h : s.quietCheck act = true) :
    s.Quiet act := by
  refine ⟨fun i c r hact hi _ hto => ?_, fun i c r hact hi hidle => ?_⟩
  · subst hact
    simpa [System.quietCheck, hi, hto] using h
  · subst hact
    simpa [System.quietCheck, hi, hidle, and_assoc] using h

/-- The identity of a worker and its answers to the first two tasks. -/
def workerA : WorkerIdentity := { workerId := "a", hostname := "node-1" }

def answer (taskId : ℤ) (count : String) : TaskResult :=
  { taskId := taskId, workerId := "a", count := count, durationSec := 0, timedOut := false }

/-- Two cubes, solved one after the other. -/
def twoCubes : List Action :=
  [List.replicate 11 .solve, [.getTask workerA], List.replicate 6 (.handler 0 .go),
    [.submitResult (answer 1 "2")], List.replicate 6 (.handler 1 .go), [.getTask workerA],
    List.replicate 6 (.handler 2 .go), [.submitResult (answer 2 "3")],
    List.replicate 8 (.handler 3 .go), List.replicate 2 .solve].flatten

theorem System.announces_drained_twoCubes :
    ∃ s : System, s.solve = .returned 5 ∧ s.server.taskManager.checkbook = ∅ ∧
      5 = s.server.leafSum := by
  have hrun : (exec (fun s a => if System.quietCheck s a then System.step s a else none)
      (.init defaultConfig .new sevenVars [[1], [-1]]) twoCubes).map
        (fun s => match s.solve with | .returned count => some count | _ => none) = some (some 5) := by
    decide +kernel
  obtain ⟨s, hs, hret⟩ := Option.map_eq_some_iff.mp hrun
  have hcount : s.solve = .returned 5 := by
    split at hret
    · rename_i count hsolve
      rw [hsolve, Option.some.inj hret]
    · exact nomatch hret
  have hr := Reaches.of_exec_checked (fun _ _ => System.quiet_of_check) hs
  exact ⟨s, hcount, (System.announces_drained hr).2 5 hcount⟩

/-! ### An early announcement -/

/-- `Solve` enqueues its first cube; a worker takes it, solves it and submits it while the other cubes
are still to be enqueued. -/
def earlySchedule : List Action :=
  [List.replicate 6 .solve, [.getTask workerA], List.replicate 6 (.handler 0 .go),
    [.submitResult (answer 1 "2")], List.replicate 7 (.handler 1 .go)].flatten

/-- The start of a problem as `main` starts it. -/
def sevenVarsInit : System :=
  .init defaultConfig .new sevenVars (initialCubes fun _ => freqTable sevenVars.clauses)

/-- **An announcement while `Solve` is still loading.** -/
theorem System.announces_early :
    ∃ s, Reachable System.step sevenVarsInit s ∧ (∃ h ∈ s.handlers, h.announces = true) ∧
      ¬s.Drained := by
  have hrun : (exec System.step sevenVarsInit earlySchedule).map
      (fun s => (s.handlers.any Handler.announces, s.solve.enqueues)) = some (true, true) := by
    decide +kernel
  obtain ⟨s, hs, hpair⟩ := Option.map_eq_some_iff.mp hrun
  obtain ⟨hann, hload⟩ := Prod.mk.inj hpair
  refine ⟨s, Reaches.of_exec (fun _ _ _ => trivial) hs, List.any_eq_true.mp hann, fun hdrained => ?_⟩
  rw [hdrained.loaded] at hload
  exact Bool.noConfusion hload

end HydraSAT.Master
