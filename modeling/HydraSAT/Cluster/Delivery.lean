import HydraSAT.Cluster.Workers
import HydraSAT.Master.Completion

/-!
# Tasks under failing calls

A task that `GetTask` has taken from the queue exists only in that handler, in its reply, in the
worker that received it, and in the result on its way back.  The master never queues it again, and
the worker never submits a result twice, so a task is stranded when a reply that carries it or a
request that carries its result is lost (`Fleet.strands`).  Other failures do no harm:

* `Fleet.Placed`: where an outstanding task can be;
* `Fleet.Delivers`: no reply that carries a task is dropped, and no `SubmitResult` request fails
  before it reaches the master;
* `Fleet.placed`: in such runs every outstanding task is somewhere, as long as no worker exits.
-/

namespace HydraSAT.Cluster

open HydraSAT.Lib HydraSAT.Master

/-! ### Where a task can be -/

/-- The task that a `GetTask` handler has dequeued and not returned yet. -/
def fetched : Handler → List ℤ
  | .getTask (.stamp _ task) => [task.taskId]
  | .getTask (.record _ task) => [task.taskId]
  | .getTask (.assign _ task) => [task.taskId]
  | _ => []

/-- The task whose result has reached the master and is not looked up yet. -/
def submitted : Handler → List ℤ
  | .submitResult (.remove r) => [r.taskId]
  | _ => []

/-- The ids that a handler answers for. -/
def holds (h : Handler) : List ℤ := h.call.unsent ++ fetched h ++ submitted h

/-- The task in the reply of a handler that has returned. -/
def replyOf : Option Handler → List ℤ
  | some (.getTask (.returned (some task))) => [task.taskId]
  | _ => []

/-- The task in the reply that a worker has yet to receive. -/
def Worker.reply (handlers : List Handler) : Worker → List ℤ
  | .waiting i => replyOf handlers[i]?
  | _ => []

/-- The task that a worker is solving or about to submit. -/
def Worker.task : Worker → List ℤ
  | .solving task => [task.taskId]
  | .submitting r => [r.taskId]
  | _ => []

/-- **Where an outstanding task is.** -/
inductive Fleet.Placed (s : Fleet) (x : ℤ) : Prop
  /-- In the task queue. -/
  | queued (task) : task ∈ s.system.server.taskManager.taskQueue → task.taskId = x → Placed s x
  /-- About to be sent on the queue by the `EnqueueCubes` of `Solve`. -/
  | loading : x ∈ s.system.solve.call.unsent → Placed s x
  /-- About to be sent by the `EnqueueCubes` of a handler, in a `GetTask` handler, or in a
  `SubmitResult` handler that has not looked it up. -/
  | handled (h) : h ∈ s.system.handlers → x ∈ holds h → Placed s x
  /-- In a reply still to be delivered. -/
  | replied (w) : w ∈ s.workers → x ∈ w.2.reply s.system.handlers → Placed s x
  /-- Being solved or submitted. -/
  | worked (w) : w ∈ s.workers → x ∈ w.2.task → Placed s x

/-- A step drops no reply that carries a task, and no request that carries a result. -/
def Fleet.Delivers (s : Fleet) (act : Action) : Prop :=
  (∀ i c ident task, act = .handler i c →
    s.system.handlers[i]? = some (.getTask (.assign ident task)) →
      ∃ w ∈ s.workers, w.2 = .waiting i) ∧
  (∀ j ident i task, act = .worker j .rpcError → s.workers[j]? = some (ident, .waiting i) →
    s.system.handlers[i]? = some (.getTask (.returned (some task))) → task.taskId = -1) ∧
  ∀ j ident r, act = .worker j .rpcError → s.workers[j]? ≠ some (ident, .submitting r)

/-! ### What the steps of the master do to places -/

theorem enqueueStep_placed {tm tm' : TaskManager} {e e' : EnqueueCubes}
    (h : enqueueStep tm e = some (tm', e')) :
    (∀ task ∈ tm.taskQueue, task ∈ tm'.taskQueue) ∧
      (∀ x ∈ e.unsent, x ∈ e'.unsent ∨ ∃ task ∈ tm'.taskQueue, task.taskId = x) ∧
      ∀ x ∈ tm'.checkbook, x ∈ tm.checkbook ∨ x ∈ e'.unsent := by
  rcases enqueueStep_cases h with ⟨cube, rest, rfl, rfl, rfl⟩ | ⟨id, cube, rest, rfl, -, rfl, rfl⟩ |
    ⟨id, cube, rest, rfl, rfl, rfl⟩ | ⟨task, rest, rfl, -, rfl, rfl⟩
  · exact ⟨fun _ ht => ht, fun _ hx => absurd hx List.not_mem_nil, fun _ hx => .inl hx⟩
  · refine ⟨fun _ ht => ht, fun _ hx => .inl hx, fun x hx => ?_⟩
    rcases (AList.mem_insert _).mp hx with rfl | hx
    · exact .inr List.mem_cons_self
    · exact .inl hx
  · exact ⟨fun _ ht => ht, fun _ hx => .inl hx, fun _ hx => .inl hx⟩
  · refine ⟨fun _ ht => List.mem_append_left _ ht, fun x hx => .inr ⟨task, ?_, ?_⟩, fun _ hx => .inl hx⟩
    · exact List.mem_append_right _ List.mem_cons_self
    · exact (List.mem_singleton.mp hx).symm

/-- **What a handler's move does to places.**  Tasks leave the queue into the handler, ids leave the
handler into the queue or into its reply, and a new id in the checkbook is held by the handler. -/
structure Moved (s : MasterServer) (h : Handler) (s' : MasterServer) (h' : Handler) : Prop where
  queue : ∀ task ∈ s.taskManager.taskQueue,
    task ∈ s'.taskManager.taskQueue ∨ task.taskId ∈ holds h'
  held : ∀ x ∈ holds h, x ∈ s'.taskManager.checkbook → x ∈ holds h' ∨
    (∃ task ∈ s'.taskManager.taskQueue, task.taskId = x) ∨
    ∃ ident task, h = .getTask (.assign ident task) ∧ h' = .getTask (.returned (some task)) ∧
      task.taskId = x
  entered : ∀ x ∈ s'.taskManager.checkbook, x ∈ s.taskManager.checkbook ∨ x ∈ holds h'

theorem Moved.of_same {s s' : MasterServer} {h h' : Handler}
    (hqueue : s'.taskManager.taskQueue = s.taskManager.taskQueue)
    (hcheckbook : ∀ x ∈ s'.taskManager.checkbook, x ∈ s.taskManager.checkbook)
    (hholds : ∀ x ∈ holds h, x ∈ holds h') : Moved s h s' h' where
  queue task ht := .inl (by rwa [hqueue])
  held x hx _ := .inl (hholds x hx)
  entered x hx := .inl (hcheckbook x hx)

theorem GetTaskMove.moved {s s' : MasterServer} {g g' : GetTask} (hm : GetTaskMove s g s' g') :
    Moved s (.getTask g) s' (.getTask g') := by
  cases hm with
  | dequeue w task rest hq =>
      refine ⟨fun t ht => ?_, fun x hx => absurd hx List.not_mem_nil, fun _ hx => .inl hx⟩
      rw [hq] at ht
      rcases List.mem_cons.mp ht with rfl | ht
      · exact .inr List.mem_cons_self
      · exact .inl ht
  | record w task _ =>
      refine .of_same ?_ (fun x hx => mem_recordAssignment.mp hx) fun _ hx => hx
      show (s.taskManager.recordAssignment task.taskId w.hostname).taskQueue = _
      unfold TaskManager.recordAssignment
      split <;> rfl
  | assign w task =>
      refine ⟨fun t ht => .inl ht, fun x hx _ => .inr (.inr ⟨w, task, rfl, rfl, ?_⟩), fun _ hx => .inl hx⟩
      exact (List.mem_singleton.mp hx).symm
  | stamp w task => exact .of_same rfl (fun _ hx => hx) fun _ hx => hx
  | register w => exact .of_same rfl (fun _ hx => hx) fun _ hx => hx
  | capped w _ => exact .of_same rfl (fun _ hx => hx) fun _ hx => hx
  | uncapped w _ => exact .of_same rfl (fun _ hx => hx) fun _ hx => hx
  | after5s w => exact .of_same rfl (fun _ hx => hx) fun _ hx => hx
  | ctxDone w => exact .of_same rfl (fun _ hx => hx) fun _ hx => hx
  | setIdle w => exact .of_same rfl (fun _ hx => hx) fun _ hx => hx

theorem SubmitMove.moved {s s' : MasterServer} {g g' : SubmitResult} (hm : SubmitMove s g s' g') :
    Moved s (.submitResult g) s' (.submitResult g') := by
  cases hm with
  | accept r entry _ hl =>
      have hdel : s.taskManager.deleteTask r.taskId =
          { s.taskManager with checkbook := s.taskManager.checkbook.erase r.taskId, mu := true } := by
        unfold TaskManager.deleteTask
        rw [hl]
      refine ⟨fun t ht => .inl ?_, fun x hx hmem => ?_, fun x hx => .inl ?_⟩
      · show t ∈ (s.taskManager.deleteTask r.taskId).taskQueue
        rwa [hdel]
      · have hx' : x = r.taskId := List.mem_singleton.mp hx
        have hmem' : x ∈ (s.taskManager.deleteTask r.taskId).checkbook := hmem
        rw [hdel, hx'] at hmem'
        exact absurd rfl (AList.mem_erase.mp hmem').1
      · have hx' : x ∈ (s.taskManager.deleteTask r.taskId).checkbook := hx
        rw [hdel] at hx'
        exact (AList.mem_erase.mp hx').2
  | reject r _ hl =>
      refine ⟨fun t ht => .inl ht, fun x hx hmem => ?_, fun x hx => .inl hx⟩
      have hx' : x = r.taskId := List.mem_singleton.mp hx
      rw [hx'] at hmem
      exact absurd hmem (AList.lookup_eq_none.mp hl)
  | enqueue r cube newCubes e tm' e' he =>
      obtain ⟨hqueue, hunsent, hentered⟩ := enqueueStep_placed he
      have hkeep : ∀ f : EnqueueCubes, ∀ x, x ∈ f.unsent ↔
          x ∈ holds (.submitResult (.enqueue r cube newCubes f)) := by
        intro f x
        simp [holds, fetched, submitted, Handler.call, SubmitResult.call]
      refine ⟨fun t ht => .inl (hqueue t ht), fun x hx _ => ?_, fun x hx => ?_⟩
      · rcases hunsent x ((hkeep e x).mpr hx) with hsame | hsent
        · exact .inl ((hkeep e' x).mp hsame)
        · exact .inr (.inl hsent)
      · exact (hentered x hx).imp_right (hkeep e' x).mp
  | _ => exact .of_same rfl (fun _ hx => hx) fun _ hx => absurd hx List.not_mem_nil

theorem HandlerMove.moved {s s' : MasterServer} {h h' : Handler} (hm : HandlerMove s h s' h') :
    Moved s h s' h' := by
  cases hm with
  | getTask hg => exact GetTaskMove.moved hg
  | submitResult hm => exact SubmitMove.moved hm

/-- A handler that moves has no reply yet. -/
theorem HandlerMove.no_reply {s s' : MasterServer} {h h' : Handler} (hm : HandlerMove s h s' h') :
    replyOf (some h) = [] := by
  cases hm with
  | getTask hg => cases hg <;> rfl
  | submitResult hm => rfl

/-- Replies stay when a handler moves. -/
theorem Worker.reply_of_move {s s' : MasterServer} {pre post : List Handler} {h h' : Handler}
    (hm : HandlerMove s h s' h') {w : Worker} {x : ℤ} (hx : x ∈ w.reply (pre ++ h :: post)) :
    x ∈ w.reply (pre ++ h' :: post) := by
  cases w with
  | waiting i =>
      have hx' : x ∈ replyOf (pre ++ h :: post)[i]? := hx
      show x ∈ replyOf (pre ++ h' :: post)[i]?
      by_cases hi : i = pre.length
      · have hself : (pre ++ h :: post)[i]? = some h := by simp [hi]
        rw [hself, HandlerMove.no_reply hm] at hx'
        exact absurd hx' List.not_mem_nil
      · rwa [getElem?_exchange hi]
  | _ => exact hx

/-- Replies stay when a handler arrives. -/
theorem Worker.reply_of_arrival {handlers : List Handler} {h : Handler} {w : Worker} {x : ℤ}
    (hx : x ∈ w.reply handlers) : x ∈ w.reply (handlers ++ [h]) := by
  cases w with
  | waiting i =>
      have hx' : x ∈ replyOf handlers[i]? := hx
      show x ∈ replyOf (handlers ++ [h])[i]?
      by_cases hi : i < handlers.length
      · rwa [List.getElem?_append_left hi]
      · rw [List.getElem?_eq_none (not_lt.mp hi)] at hx'
        exact absurd hx' List.not_mem_nil
  | _ => exact hx

/-! ### Steps keep tasks in place -/

/-- `Solve` sends what it has loaded, and holds what it has drawn. -/
theorem Fleet.Placed.solve {s : Fleet} {server : MasterServer} {p : Solve} {x : ℤ}
    (hm : SolveMove s.system.server s.system.solve server p)
    (hall : ∀ x ∈ s.system.server.taskManager.checkbook, s.Placed x)
    (hx : x ∈ server.taskManager.checkbook) :
    Fleet.Placed { s with system := { s.system with server := server, solve := p } } x := by
  have hsame : (∀ task ∈ s.system.server.taskManager.taskQueue, task ∈ server.taskManager.taskQueue) ∧
      (∀ y ∈ s.system.solve.call.unsent,
        y ∈ p.call.unsent ∨ ∃ task ∈ server.taskManager.taskQueue, task.taskId = y) ∧
      ∀ y ∈ server.taskManager.checkbook,
        y ∈ s.system.server.taskManager.checkbook ∨ y ∈ p.call.unsent := by
    generalize s.system.solve = q at hm
    cases hm with
    | load e tm' e' he => exact enqueueStep_placed he
    | _ => exact ⟨fun _ ht => ht, fun _ hy => .inl hy, fun _ hy => .inl hy⟩
  obtain ⟨hqueue, hunsent, hentered⟩ := hsame
  rcases hentered x hx with hold | hnew
  · cases hall x hold with
    | queued task ht hid => exact .queued task (hqueue task ht) hid
    | loading hload =>
        rcases hunsent x hload with hload | ⟨task, ht, hid⟩
        · exact .loading hload
        · exact .queued task ht hid
    | handled h hh hid => exact .handled h hh hid
    | replied w hw hid => exact .replied w hw hid
    | worked w hw hid => exact .worked w hw hid
  · exact .loading hnew

/-- A handler passes a task on to the queue, or to a reply that somebody waits for. -/
theorem Fleet.Placed.handler {s : Fleet} {pre post : List Handler} {h h' : Handler}
    {server : MasterServer} {x : ℤ} (heq : s.system.handlers = pre ++ h :: post)
    (hm : HandlerMove s.system.server h server h')
    (hwaits : ∀ ident task, h = .getTask (.assign ident task) →
      ∃ w ∈ s.workers, w.2 = .waiting pre.length)
    (hall : ∀ x ∈ s.system.server.taskManager.checkbook, s.Placed x)
    (hx : x ∈ server.taskManager.checkbook) :
    Fleet.Placed
      { s with system := { s.system with server := server, handlers := pre ++ h' :: post } } x := by
  have hmoved := HandlerMove.moved hm
  have hself : h' ∈ pre ++ h' :: post := List.mem_append_right _ List.mem_cons_self
  rcases hmoved.entered x hx with hold | hnew
  · cases hall x hold with
    | queued task ht hid =>
        rcases hmoved.queue task ht with ht | ht
        · exact .queued task ht hid
        · exact .handled h' hself (hid ▸ ht)
    | loading hload => exact .loading hload
    | handled u hu hid =>
        rw [heq] at hu
        by_cases hmover : u = h
        · rw [hmover] at hid
          rcases hmoved.held x hid hx with hid | ⟨task, ht, hid⟩ | ⟨ident, task, hh, hh', hid⟩
          · exact .handled h' hself hid
          · exact .queued task ht hid
          · obtain ⟨⟨w, worker⟩, hw, rfl⟩ := hwaits ident task hh
            refine .replied _ hw ?_
            show x ∈ replyOf (pre ++ h' :: post)[pre.length]?
            simp [hh', replyOf, hid]
        · exact .handled u (mem_exchange hu hmover) hid
    | replied w hw hid =>
        rw [heq] at hid
        exact .replied w hw (Worker.reply_of_move hm hid)
    | worked w hw hid => exact .worked w hw hid
  · exact .handled h' hself hnew

/-- A worker's move adds a call at the most; nothing else of the master changes. -/
theorem WorkerMove.frame {ident : WorkerIdentity} {s t : System} {w w' : Worker} {e : Event}
    (hm : WorkerMove ident s w e t w') : t.server = s.server ∧ t.solve = s.solve ∧
      ∃ arrived, t.handlers = s.handlers ++ arrived := by
  cases hm with
  | call => exact ⟨rfl, rfl, _, rfl⟩
  | submit r => exact ⟨rfl, rfl, _, rfl⟩
  | _ => exact ⟨rfl, rfl, [], (List.append_nil _).symm⟩

/-- A call that arrives takes no reply away. -/
theorem WorkerMove.keeps_reply {ident : WorkerIdentity} {s t : System} {w w' u : Worker} {e : Event}
    {x : ℤ} (hm : WorkerMove ident s w e t w') (hu : x ∈ u.reply s.handlers) :
    x ∈ u.reply t.handlers := by
  cases hm with
  | call => exact Worker.reply_of_arrival hu
  | submit r => exact Worker.reply_of_arrival hu
  | _ => exact hu

/-- What the moved worker answered for is with it, or at the master. -/
theorem WorkerMove.keeps_task {s : Fleet} {pre post : List (WorkerIdentity × Worker)}
    {ident : WorkerIdentity} {w w' : Worker} {e : Event} {t : System} {x : ℤ}
    (heq : s.workers = pre ++ (ident, w) :: post) (hm : WorkerMove ident s.system w e t w')
    (hdelivers : s.Delivers (.worker pre.length e)) (hexited : w' ≠ .exited) (hpos : 0 < x)
    (hid : x ∈ w.reply s.system.handlers ∨ x ∈ w.task) :
    Fleet.Placed { system := t, workers := pre ++ (ident, w') :: post } x := by
  have hself : (ident, w') ∈ pre ++ (ident, w') :: post :=
    List.mem_append_right _ List.mem_cons_self
  have hat : s.workers[pre.length]? = some (ident, w) := by simp [heq]
  cases hm with
  | receive i task hret hnone =>
      refine .worked (ident, .solving task) hself ?_
      simpa [Worker.reply, replyOf, hret, Worker.task] using hid
  | noWork i task hret hnone =>
      have hid' : x = task.taskId := by simpa [Worker.reply, replyOf, hret, Worker.task] using hid
      omega
  | cancelled i hret => simp [Worker.reply, replyOf, hret, Worker.task] at hid
  | replyLost i =>
      -- only the reply of a master that has no task may be lost
      have hid' : x ∈ replyOf s.system.handlers[i]? := hid.resolve_right List.not_mem_nil
      unfold replyOf at hid'
      split at hid'
      · rename_i task hret
        have hnone := hdelivers.2.1 _ ident i task rfl hat hret
        have hx' : x = task.taskId := List.mem_singleton.mp hid'
        omega
      · exact absurd hid' List.not_mem_nil
  | solve task count durationSec timedOut =>
      refine .worked (ident, .submitting _) hself ?_
      simpa [Worker.reply, Worker.task] using hid
  | submit r =>
      refine .handled _ (List.mem_append_right _ List.mem_cons_self) ?_
      simpa [Worker.reply, Worker.task, holds, submitted, fetched, Handler.call,
        SubmitResult.call, EnqueueCubes.unsent] using hid
  | requestLost r => exact absurd hat (hdelivers.2.2 _ ident r rfl)
  | exit w hw => exact absurd rfl hexited
  | _ => simp [Worker.reply, Worker.task] at hid

/-- A worker keeps the task that it has received until its result is with the master. -/
theorem Fleet.Placed.worker {s : Fleet} {pre post : List (WorkerIdentity × Worker)}
    {ident : WorkerIdentity} {w w' : Worker} {e : Event} {t : System} {x : ℤ}
    (heq : s.workers = pre ++ (ident, w) :: post) (hm : WorkerMove ident s.system w e t w')
    (hdelivers : s.Delivers (.worker pre.length e)) (hexited : w' ≠ .exited) (hpos : 0 < x)
    (hx : s.Placed x) : Fleet.Placed { system := t, workers := pre ++ (ident, w') :: post } x := by
  have hown := hm.keeps_task heq hdelivers hexited hpos
  obtain ⟨hserver, hsolve, arrived, hhandlers⟩ := hm.frame
  cases hx with
  | queued task ht hid =>
      refine .queued task ?_ hid
      show task ∈ t.server.taskManager.taskQueue
      rwa [hserver]
  | loading hload =>
      refine .loading ?_
      show x ∈ t.solve.call.unsent
      rwa [hsolve]
  | handled h hh hid =>
      refine .handled h ?_ hid
      show h ∈ t.handlers
      rw [hhandlers]
      exact List.mem_append_left _ hh
  | replied u hu hid =>
      rw [heq] at hu
      by_cases hmover : u = (ident, w)
      · rw [hmover] at hid
        exact hown (.inl hid)
      · exact .replied u (mem_exchange hu hmover) (hm.keeps_reply hid)
  | worked u hu hid =>
      rw [heq] at hu
      by_cases hmover : u = (ident, w)
      · rw [hmover] at hid
        exact hown (.inr hid)
      · exact .worked u (mem_exchange hu hmover) hid

/-! ### Runs -/

/-- No worker has exited. -/
def Fleet.Running (s : Fleet) : Prop := ∀ w ∈ s.workers, w.2 ≠ .exited

/-- A worker that has exited does not come back. -/
theorem Fleet.Running.of_step {s s' : Fleet} {act : Action} (hs : s.step act = some s')
    (hrun : s'.Running) : s.Running := by
  cases Fleet.step_cases hs with
  | solve _ => exact hrun
  | handler c _ _ => exact hrun
  | @worker pre ident w post e t w' heq hm =>
      intro u hu
      rw [heq] at hu
      by_cases hmover : u = (ident, w)
      · rw [hmover]
        rintro rfl
        cases hm with
        | exit w hw => exact hw rfl
      · exact hrun u (mem_exchange hu hmover)

/-- **No task is stranded** in a run that delivers every reply with a task and every result. -/
theorem Fleet.placed {cfg : HeuristicConfig} {wt : WorkerTracker} {cnf : CNFData}
    {cubes : List Cube} {idents : List WorkerIdentity} {s : Fleet}
    (hr : Reaches Fleet.step Fleet.Delivers (Fleet.init (System.init cfg wt cnf cubes) idents) s)
    (hrun : s.Running) : ∀ x ∈ s.system.server.taskManager.checkbook, s.Placed x := by
  refine hr.invariant' (fun s => s.Running → ∀ x ∈ s.system.server.taskManager.checkbook, s.Placed x)
    (fun _ x hx => absurd hx (AList.notMem_empty x)) ?_ hrun
  intro s act s' hr ih hdelivers hs hrun
  have hold := ih (hrun.of_step hs)
  intro x hx
  cases Fleet.step_cases hs with
  | solve hsys =>
      cases System.move_of_step hsys with
      | solve hm => exact Fleet.Placed.solve hm hold hx
  | @handler pre h post server h' c heq hm =>
      have hwaits : ∀ ident task, h = .getTask (.assign ident task) →
          ∃ w ∈ s.workers, w.2 = .waiting pre.length := by
        rintro ident task rfl
        exact hdelivers.1 pre.length c ident task rfl (by simp [heq])
      exact Fleet.Placed.handler heq hm hwaits hold hx
  | @worker pre ident w post e t w' heq hm =>
      have hserver : t.server = s.system.server := by
        cases hm <;> rfl
      have hx' : x ∈ s.system.server.taskManager.checkbook := by
        rw [← hserver]
        exact hx
      have hpos := System.ids_pos (Fleet.system_reachable hr) hx'
      have hexited : w' ≠ .exited := hrun (ident, w') (List.mem_append_right _ List.mem_cons_self)
      exact Fleet.Placed.worker heq hm hdelivers hexited hpos (hold x hx')

/-- `Delivers`, evaluated: no call fails, and whoever returns a task is waited for. -/
def Fleet.deliversCheck (s : Fleet) : Action → Bool
  | .handler i _ =>
      match s.system.handlers[i]? with
      | some (.getTask (.assign _ _)) =>
          s.workers.any fun w => match w.2 with | .waiting k => k == i | _ => false
      | _ => true
  | .worker _ .rpcError => false
  | _ => true

theorem Fleet.delivers_of_check {s : Fleet} {act : Action} (h : s.deliversCheck act = true) :
    s.Delivers act := by
  refine ⟨?_, ?_, ?_⟩
  · rintro i c ident task rfl hi
    simp only [Fleet.deliversCheck, hi, List.any_eq_true] at h
    obtain ⟨⟨w, worker⟩, hw, hwaits⟩ := h
    refine ⟨(w, worker), hw, ?_⟩
    cases worker with
    | waiting k => rw [beq_iff_eq.mp hwaits]
    | _ => exact Bool.noConfusion hwaits
  · rintro j ident i task rfl _ _
    exact Bool.noConfusion h
  · rintro j ident r rfl _
    exact Bool.noConfusion h

/-- `Solve` enqueues its first cube and worker 0 takes it. -/
def firstTask : List Action :=
  [List.replicate 6 .solve, [.worker 0 .go], List.replicate 6 (.handler 0 .go),
    [.worker 0 .go]].flatten

/-- One worker at the start of a problem as `main` starts it. -/
def oneWorkerInit : Fleet := Fleet.init sevenVarsInit [workerA]

theorem Fleet.placed_firstTask :
    ∃ s : Fleet, 1 ∈ s.system.server.taskManager.checkbook ∧ s.Placed 1 := by
  have hrun : (exec (fun s a => if Fleet.deliversCheck s a then Fleet.step s a else none)
      oneWorkerInit firstTask).map (fun s =>
        (decide (1 ∈ s.system.server.taskManager.checkbook.keys),
          s.workers.all fun w => match w.2 with | .exited => false | _ => true)) =
        some (true, true) := by
    decide +kernel
  obtain ⟨s, hs, hpair⟩ := Option.map_eq_some_iff.mp hrun
  obtain ⟨hkey, hall⟩ := Prod.mk.inj hpair
  have hmem : 1 ∈ s.system.server.taskManager.checkbook := AList.mem_keys.mpr (of_decide_eq_true hkey)
  have hrunning : s.Running := by
    intro w hw hexited
    have hlive := List.all_eq_true.mp hall w hw
    rw [hexited] at hlive
    exact Bool.noConfusion hlive
  have hr := Reaches.of_exec_checked (fun _ _ => Fleet.delivers_of_check) hs
  exact ⟨s, hmem, Fleet.placed hr hrunning 1 hmem⟩

/-! ### A stranded task -/

/-- `Placed`, evaluated. -/
def Fleet.placedCheck (s : Fleet) (x : ℤ) : Bool :=
  s.system.server.taskManager.taskQueue.any (fun task => task.taskId == x) ||
    decide (x ∈ s.system.solve.call.unsent) ||
    s.system.handlers.any (fun h => decide (x ∈ holds h)) ||
    s.workers.any fun w => decide (x ∈ w.2.reply s.system.handlers ++ w.2.task)

theorem Fleet.Placed.check {s : Fleet} {x : ℤ} (h : s.Placed x) : s.placedCheck x = true := by
  simp only [Fleet.placedCheck, Bool.or_eq_true, List.any_eq_true, decide_eq_true_eq,
    List.mem_append, beq_iff_eq]
  cases h with
  | queued task ht hid => exact .inl (.inl (.inl ⟨task, ht, hid⟩))
  | loading hid => exact .inl (.inl (.inr hid))
  | handled h hh hid => exact .inl (.inr ⟨h, hh, hid⟩)
  | replied w hw hid => exact .inr ⟨w, hw, .inl hid⟩
  | worked w hw hid => exact .inr ⟨w, hw, .inr hid⟩

/-- The worker solves the task, and its `SubmitResult` request fails. -/
def lostResult : List Action :=
  firstTask ++ [.worker 0 (.answer "64" 1 false), .worker 0 .rpcError]

/-- **A lost result strands its task**: nobody has it, and it stays in the checkbook. -/
theorem Fleet.strands :
    ∃ s, Reachable Fleet.step oneWorkerInit s ∧ s.Running ∧
      1 ∈ s.system.server.taskManager.checkbook ∧ ¬s.Placed 1 := by
  have hrun : (exec Fleet.step oneWorkerInit lostResult).map (fun s =>
      (decide (1 ∈ s.system.server.taskManager.checkbook.keys), s.placedCheck 1,
        s.workers.all fun w => match w.2 with | .exited => false | _ => true)) =
        some (true, false, true) := by
    decide +kernel
  obtain ⟨s, hs, htriple⟩ := Option.map_eq_some_iff.mp hrun
  obtain ⟨hkey, hpair⟩ := Prod.mk.inj htriple
  obtain ⟨hcheck, hall⟩ := Prod.mk.inj hpair
  refine ⟨s, Reaches.of_exec (fun _ _ _ => trivial) hs, ?_,
    AList.mem_keys.mpr (of_decide_eq_true hkey), fun hplaced => ?_⟩
  · intro w hw hexited
    have hlive := List.all_eq_true.mp hall w hw
    rw [hexited] at hlive
    exact Bool.noConfusion hlive
  · rw [hplaced.check] at hcheck
    exact Bool.noConfusion hcheck

end HydraSAT.Cluster
