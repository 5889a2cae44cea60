import HydraSAT.Master.Bookkeeping

/-!
# How many tasks there are

A split turns one task into two, and only an accepted timeout is split.

* `System.tasks_eq`: outstanding tasks, finished ones and those still to be entered are as many as the
  initial cubes and the timeouts together;
* `System.splitting_le`: no more handlers are in the timeout branch than timeouts were accepted;
* `System.carried_le`: what is on the queue or about to be sent on it is outstanding, every task once.
-/

namespace HydraSAT.Master

open HydraSAT.Lib

/-! ### Outstanding tasks -/

/-- The tasks that a handler still has to enter. -/
def SubmitResult.toEnter : SubmitResult → ℕ
  | .release r _ _ => if r.timedOut then 2 else 0
  | .updateWorker r _ _ => if r.timedOut then 2 else 0
  | .countTimeout _ _ => 2
  | .split _ _ => 2
  | .enqueue _ _ _ e => e.pending.length
  | _ => 0

/-- `toEnter`, for any handler. -/
def Handler.toEnter : Handler → ℕ
  | .getTask _ => 0
  | .submitResult h => h.toEnter

/-- Outstanding and finished tasks, a timed-out one counted with its two children. -/
def MasterServer.tasks (s : MasterServer) : ℤ :=
  s.taskManager.checkbook.keys.length + s.history.accepted.length - 2 * s.timeouts

theorem MasterServer.timeouts_accept (s : MasterServer) (r : TaskResult) :
    (s.accept r).timeouts = s.timeouts + if r.timedOut then 1 else 0 := by
  show (s.history.accepted ++ [r]).countP _ = _
  rw [List.countP_append, List.countP_singleton]
  rfl

theorem MasterServer.tasks_accept (s : MasterServer) {r : TaskResult} {entry : TaskEntry}
    (hl : s.taskManager.checkbook.lookup r.taskId = some entry) :
    (s.accept r).tasks + (if r.timedOut then 2 else 0 : ℕ) = s.tasks := by
  have hkeys := TaskManager.length_deleteTask hl
  have haccepted : (s.accept r).history.accepted.length = s.history.accepted.length + 1 :=
    List.length_append
  have htasks : (s.accept r).taskManager = s.taskManager.deleteTask r.taskId := rfl
  rw [MasterServer.tasks, MasterServer.tasks, MasterServer.timeouts_accept, haccepted, htasks, ← hkeys]
  cases r.timedOut <;> simp <;> omega

theorem enqueueStep_tasks {tm tm' : TaskManager} {e e' : EnqueueCubes}
    (hfresh : ∀ x ∈ e.drawn, x ∉ tm.checkbook) (h : enqueueStep tm e = some (tm', e')) :
    tm'.checkbook.keys.length + e'.pending.length = tm.checkbook.keys.length + e.pending.length := by
  rcases enqueueStep_cases h with ⟨cube, rest, rfl, rfl, rfl⟩ | ⟨id, cube, rest, rfl, -, rfl, rfl⟩ |
    ⟨id, cube, rest, rfl, rfl, rfl⟩ | ⟨task, rest, rfl, -, rfl, rfl⟩
  · rfl
  · rw [TaskManager.length_enter cube (hfresh id List.mem_cons_self)]
    simp only [EnqueueCubes.pending, List.length_cons]
    omega
  · rfl
  · rfl

theorem HandlerMove.tasks {s s' : MasterServer} {h h' : Handler} (hm : HandlerMove s h s' h')
    (hfresh : ∀ x ∈ h.call.drawn, x ∉ s.taskManager.checkbook) :
    s'.tasks + (h'.toEnter : ℤ) = s.tasks + (h.toEnter : ℤ) := by
  cases hm with
  | getTask hg =>
      cases hg with
      | record w task _ =>
          have hlength := s.taskManager.length_recordAssignment task.taskId w.hostname
          show ((s.taskManager.recordAssignment task.taskId w.hostname).checkbook.keys.length : ℤ) +
            _ - _ + _ = _
          rw [hlength]
          rfl
      | _ => rfl
  | submitResult hm =>
      cases hm with
      | accept r entry _ hl =>
          show (s.accept r).tasks + ((if r.timedOut then 2 else 0 : ℕ) : ℤ) = s.tasks + ((0 : ℕ) : ℤ)
          rw [s.tasks_accept hl, Nat.cast_zero, add_zero]
      | timedOut r hostname cube hto =>
          show s.tasks + ((2 : ℕ) : ℤ) = s.tasks + ((if r.timedOut then 2 else 0 : ℕ) : ℤ)
          rw [hto]
          rfl
      | parsed r hostname cube val hto _ =>
          show s.tasks + ((0 : ℕ) : ℤ) = s.tasks + ((if r.timedOut then 2 else 0 : ℕ) : ℤ)
          rw [hto]
          rfl
      | unparsed r hostname cube hto _ =>
          show s.tasks + ((0 : ℕ) : ℤ) = s.tasks + ((if r.timedOut then 2 else 0 : ℕ) : ℤ)
          rw [hto]
          rfl
      | enqueue r cube newCubes e tm' e' he =>
          have hentered : tm'.checkbook.keys.length + e'.pending.length =
              s.taskManager.checkbook.keys.length + e.pending.length := enqueueStep_tasks hfresh he
          show (tm'.checkbook.keys.length : ℤ) + s.history.accepted.length - 2 * s.timeouts +
            (e'.pending.length : ℤ) = s.taskManager.checkbook.keys.length + s.history.accepted.length -
              2 * s.timeouts + (e.pending.length : ℤ)
          omega
      | _ => rfl

/-! ### The timeout branch -/

/-- The handler has accepted a timeout and has not sent both children. -/
def SubmitResult.splitting : SubmitResult → Bool
  | .release r _ _ => r.timedOut
  | .updateWorker r _ _ => r.timedOut
  | .countTimeout _ _ => true
  | .split _ _ => true
  | .enqueue _ _ _ _ => true
  | _ => false

/-- `splitting`, for any handler. -/
def Handler.splitting : Handler → Bool
  | .getTask _ => false
  | .submitResult h => h.splitting

/-- A handler gets into the timeout branch with an accepted timeout. -/
theorem HandlerMove.splitting {s s' : MasterServer} {h h' : Handler} (hm : HandlerMove s h s' h') :
    h'.splitting.toNat + s.timeouts ≤ h.splitting.toNat + s'.timeouts := by
  cases hm with
  | getTask hg => cases hg <;> exact le_refl _
  | submitResult hm =>
      cases hm with
      | accept r entry _ _ =>
          show r.timedOut.toNat + s.timeouts ≤ 0 + (s.accept r).timeouts
          rw [s.timeouts_accept]
          cases r.timedOut
          · simp
          · rw [Bool.toNat_true, if_pos rfl]
            omega
      | timedOut r hostname cube hto =>
          show 1 + s.timeouts ≤ r.timedOut.toNat + s.timeouts
          rw [hto]
          rfl
      | parsed r hostname cube val _ _ => exact Nat.add_le_add_right (Nat.zero_le _) _
      | unparsed r hostname cube _ _ => exact Nat.add_le_add_right (Nat.zero_le _) _
      | enqueued r cube newCubes => exact Nat.add_le_add_right (Nat.zero_le _) _
      | _ => exact le_refl _

section Runs

variable {cfg : HeuristicConfig} {workers : WorkerTracker} {cnf : CNFData} {cubes : List Cube}
  {guard : System → Action → Prop} {s : System}

/-- **Every split adds one task.** -/
theorem System.tasks_eq (hr : Reaches System.step guard (.init cfg workers cnf cubes) s) :
    s.total (fun m => m.tasks) (fun p => (p.charge.length : ℤ)) (fun h => (h.toEnter : ℤ)) =
      cubes.length := by
  refine hr.invariant' (fun s => System.total (fun m => m.tasks) (fun p => (p.charge.length : ℤ))
    (fun h => (h.toEnter : ℤ)) s = cubes.length) ?_ ?_
  · show (0 : ℤ) + 0 - 2 * 0 + cubes.length + 0 = _
    omega
  · intro s act s' hr heq _ hs
    have hfresh := fun x => @System.fresh x s (System.listed_le hr.reachable x)
    refine (System.total_step hs (fun _ => rfl) (fun _ => rfl) ?_ ?_).trans heq
    · intro q server p _ hq hp
      cases hp with
      | load e tm' e' he =>
          have hentered := enqueueStep_tasks (fun x hx => hfresh x (.inl (by rw [hq]; exact hx))) he
          show (tm'.checkbook.keys.length : ℤ) + s.server.history.accepted.length -
            2 * s.server.timeouts + (e'.pending.length : ℤ) =
              s.server.taskManager.checkbook.keys.length + s.server.history.accepted.length -
                2 * s.server.timeouts + (e.pending.length : ℤ)
          omega
      | _ => rfl
    · intro i c h server h' _ hi hm
      exact hm.tasks fun x hx => hfresh x (.inr ⟨h, List.mem_of_getElem? hi, hx⟩)

/-- **Outstanding tasks** are no more than the initial cubes and the timeouts. -/
theorem System.outstanding_le (hr : Reaches System.step guard (.init cfg workers cnf cubes) s) :
    s.server.taskManager.checkbook.keys.length ≤ cubes.length + s.server.timeouts := by
  have heq := System.tasks_eq hr
  have htimeouts : s.server.timeouts ≤ s.server.history.accepted.length := List.countP_le_length
  have htoEnter : 0 ≤ (s.handlers.map fun h => (h.toEnter : ℤ)).sum :=
    List.sum_nonneg fun n hn => by
      obtain ⟨h, -, rfl⟩ := List.mem_map.mp hn
      exact Int.natCast_nonneg _
  simp only [System.total, MasterServer.tasks] at heq
  omega

/-- **Every handler in the timeout branch** has accepted a timeout of its own. -/
theorem System.splitting_le (hr : Reaches System.step guard (.init cfg workers cnf cubes) s) :
    s.handlers.countP Handler.splitting ≤ s.server.timeouts := by
  have hsum : ∀ hs : List Handler,
      hs.countP Handler.splitting = (hs.map fun h => h.splitting.toNat).sum := by
    intro hs
    induction hs with
    | nil => rfl
    | cons h hs ih =>
        rw [List.countP_cons, ih, List.map_cons, List.sum_cons, Nat.add_comm]
        cases h.splitting <;> rfl
  have hle : s.total (fun _ => 0) (fun _ => 0) (fun h => h.splitting.toNat) ≤ s.server.timeouts := by
    refine hr.invariant (fun s => System.total (fun _ => 0) (fun _ => 0)
      (fun h => h.splitting.toNat) s ≤ s.server.timeouts) (le_refl 0) ?_
    intro s act s' hle _ hs
    refine System.total_le (fun _ => 0) (fun m => m.timeouts) _ _ hs (fun _ => rfl) (fun _ => rfl)
      ?_ ?_ hle
    · intro q server p _ hp
      cases hp <;> exact le_refl _
    · intro h server h' _ hm
      have hlocal := hm.splitting
      omega
  rw [hsum]
  simpa [System.total] using hle

end Runs

/-! ### Carried tasks -/

/-- The ids on the queue, and those that handlers are about to send. -/
def System.carriedIds (s : System) : List ℤ :=
  s.server.taskManager.taskQueue.map (·.taskId) ++
    s.handlers.flatMap fun h => h.call.carried.map Prod.fst

theorem EnqueueCubes.count_carried (e : EnqueueCubes) (x : ℤ) :
    (e.carried.map Prod.fst).count x ≤ e.unsent.count x := by
  cases e with
  | insert id cube rest => exact Nat.zero_le _
  | _ => exact le_refl _

theorem count_carried_handlers (x : ℤ) (hs : List Handler) :
    (hs.flatMap fun h => h.call.carried.map Prod.fst).count x ≤
      (hs.map fun h => h.call.unsent.count x).sum := by
  induction hs with
  | nil => exact le_refl 0
  | cons h hs ih =>
      rw [List.flatMap_cons, List.count_append, List.map_cons, List.sum_cons]
      exact Nat.add_le_add (h.call.count_carried x) ih

section Runs

variable {cfg : HeuristicConfig} {workers : WorkerTracker} {cnf : CNFData} {cubes : List Cube}
  {guard : System → Action → Prop} {s : System}

theorem System.carriedIds_nodup (hr : Reaches System.step guard (.init cfg workers cnf cubes) s) :
    s.carriedIds.Nodup := by
  refine List.nodup_iff_count_le_one.mpr fun x => ?_
  have hone := (System.sent_le hr.reachable x).trans (TaskManager.born_le x _)
  have hsend := count_carried_handlers x s.handlers
  simp only [System.sent, System.total, MasterServer.sent] at hone
  rw [System.carriedIds, List.count_append]
  omega

/-- **The queue and the sends** hold outstanding tasks, every task once. -/
theorem System.carried_le (hr : Reaches System.step System.KnownAt (.init cfg workers cnf cubes) s) :
    s.carriedIds.length ≤ s.server.taskManager.checkbook.keys.length := by
  refine ((System.carriedIds_nodup hr).subperm fun x hx => ?_).length_le
  refine AList.mem_keys.mp ?_
  rcases List.mem_append.mp hx with hx | hx
  · obtain ⟨task, ht, rfl⟩ := List.mem_map.mp hx
    exact (System.carried_listed hr (.inl (List.mem_map_of_mem ht))).mem
  · obtain ⟨h, hh, hx⟩ := List.mem_flatMap.mp hx
    obtain ⟨p, hp, rfl⟩ := List.mem_map.mp hx
    exact (System.carried_listed hr (.inr (.inr ⟨h, hh, hp⟩))).mem

end Runs

end HydraSAT.Master
