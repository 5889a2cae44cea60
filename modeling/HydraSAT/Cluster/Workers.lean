import HydraSAT.Master.Ids

/-!
# The master and its workers

The work loop of `worker.py` (`run` and `_run_with_channel`) against the master while it solves one
problem.  A call that reaches the master is a new handler there; the worker waits for the handler to
return, or its call fails.  A failed call does not stop a handler that has started.

* `Worker.step` is the loop of one worker, `Fleet.step` interleaves the workers with `Solve` and the
  handlers;
* `WorkerMove` and `FleetMove` list what a step can do;
* `Fleet.system_reachable`: the master sees nothing but a run of its own.
-/

namespace HydraSAT.Cluster

open HydraSAT.Lib HydraSAT.Master

/-! ### The loop of a worker -/

/-- Where a worker stands. -/
inductive Worker
  /-- About to call `GetTask`. -/
  | polling
  /-- In the call that handler `i` serves. -/
  | waiting (i : ℕ)
  /-- In `time.sleep`, or rebuilding the channel. -/
  | sleeping
  | solving (task : TaskPayload)
  /-- About to call `SubmitResult`. -/
  | submitting (r : TaskResult)
  /-- In the call that handler `i` serves. -/
  | awaiting (i : ℕ)
  | exited

/-- What happens to a worker. -/
inductive Event
  | go
  /-- `_solve` returns. -/
  | answer (count : String) (durationSec : ℚ) (timedOut : Bool)
  /-- The call raises `RpcError`: `UNAVAILABLE` rebuilds the channel, any other code waits five
  seconds; both end at the head of the loop. -/
  | rpcError
  /-- The master was unavailable for too long, or an unexpected exception was raised. -/
  | giveUp

/-- One step of the loop. -/
def Worker.step (ident : WorkerIdentity) (s : System) : Worker → Event → Option (System × Worker)
  | .polling, .go =>
      some ({ s with handlers := s.handlers ++ [.getTask (.register ident)] },
        .waiting s.handlers.length)
  | .polling, .rpcError => some (s, .sleeping)
  | .waiting i, .go =>
      match s.handlers[i]? with
      | some (.getTask (.returned (some task))) =>
          some (s, if task.taskId = -1 then .sleeping else .solving task)
      -- the error of the cancelled context
      | some (.getTask (.returned none)) => some (s, .sleeping)
      | _ => none
  | .waiting _, .rpcError => some (s, .sleeping)
  | .sleeping, .go => some (s, .polling)
  | .sleeping, _ => none
  | .solving task, .answer count durationSec timedOut =>
      some (s, .submitting
        { taskId := task.taskId, workerId := ident.workerId, count := count
          durationSec := durationSec, timedOut := timedOut })
  | .submitting r, .go =>
      some ({ s with handlers := s.handlers ++ [.submitResult (.remove r)] },
        .awaiting s.handlers.length)
  -- the result is a local of the loop, and the loop goes on without it
  | .submitting _, .rpcError => some (s, .sleeping)
  | .awaiting i, .go =>
      match s.handlers[i]? with
      | some (.submitResult (.returned true)) => some (s, .polling)
      | some (.submitResult (.returned false)) => some (s, .sleeping)
      | _ => none
  | .awaiting _, .rpcError => some (s, .sleeping)
  | .exited, _ => none
  | _, .giveUp => some (s, .exited)
  | _, _ => none

/-- The moves of a worker. -/
inductive WorkerMove (ident : WorkerIdentity) (s : System) :
    Worker → Event → System → Worker → Prop
  | call : WorkerMove ident s .polling .go
      { s with handlers := s.handlers ++ [.getTask (.register ident)] } (.waiting s.handlers.length)
  | callFails : WorkerMove ident s .polling .rpcError s .sleeping
  | receive (i task) : s.handlers[i]? = some (.getTask (.returned (some task))) → task.taskId ≠ -1 →
      WorkerMove ident s (.waiting i) .go s (.solving task)
  | noWork (i task) : s.handlers[i]? = some (.getTask (.returned (some task))) → task.taskId = -1 →
      WorkerMove ident s (.waiting i) .go s .sleeping
  | cancelled (i) : s.handlers[i]? = some (.getTask (.returned none)) →
      WorkerMove ident s (.waiting i) .go s .sleeping
  | replyLost (i) : WorkerMove ident s (.waiting i) .rpcError s .sleeping
  | wake : WorkerMove ident s .sleeping .go s .polling
  | solve (task count durationSec timedOut) :
      WorkerMove ident s (.solving task) (.answer count durationSec timedOut) s
        (.submitting
          { taskId := task.taskId, workerId := ident.workerId, count := count
            durationSec := durationSec, timedOut := timedOut })
  | submit (r) : WorkerMove ident s (.submitting r) .go
      { s with handlers := s.handlers ++ [.submitResult (.remove r)] } (.awaiting s.handlers.length)
  | requestLost (r) : WorkerMove ident s (.submitting r) .rpcError s .sleeping
  | done (i) : s.handlers[i]? = some (.submitResult (.returned true)) →
      WorkerMove ident s (.awaiting i) .go s .polling
  | refused (i) : s.handlers[i]? = some (.submitResult (.returned false)) →
      WorkerMove ident s (.awaiting i) .go s .sleeping
  | ackLost (i) : WorkerMove ident s (.awaiting i) .rpcError s .sleeping
  | exit (w) : w ≠ .exited → WorkerMove ident s w .giveUp s .exited

theorem Worker.step_cases {ident : WorkerIdentity} {s s' : System} {w w' : Worker} {e : Event}
    (h : Worker.step ident s w e = some (s', w')) : WorkerMove ident s w e s' w' := by
  unfold Worker.step at h
  split at h
  · obtain ⟨rfl, rfl⟩ := Prod.mk.inj (Option.some.inj h)
    exact .call
  · obtain ⟨rfl, rfl⟩ := Prod.mk.inj (Option.some.inj h)
    exact .callFails
  · rename_i i
    split at h
    · rename_i task hret
      obtain ⟨rfl, rfl⟩ := Prod.mk.inj (Option.some.inj h)
      by_cases hnone : task.taskId = -1
      · rw [if_pos hnone]
        exact .noWork i task hret hnone
      · rw [if_neg hnone]
        exact .receive i task hret hnone
    · rename_i hret
      obtain ⟨rfl, rfl⟩ := Prod.mk.inj (Option.some.inj h)
      exact .cancelled i hret
    · exact nomatch h
  · rename_i i
    obtain ⟨rfl, rfl⟩ := Prod.mk.inj (Option.some.inj h)
    exact .replyLost i
  · obtain ⟨rfl, rfl⟩ := Prod.mk.inj (Option.some.inj h)
    exact .wake
  · exact nomatch h
  · rename_i task count durationSec timedOut
    obtain ⟨rfl, rfl⟩ := Prod.mk.inj (Option.some.inj h)
    exact .solve task count durationSec timedOut
  · rename_i r
    obtain ⟨rfl, rfl⟩ := Prod.mk.inj (Option.some.inj h)
    exact .submit r
  · rename_i r
    obtain ⟨rfl, rfl⟩ := Prod.mk.inj (Option.some.inj h)
    exact .requestLost r
  · rename_i i
    split at h
    · rename_i hret
      obtain ⟨rfl, rfl⟩ := Prod.mk.inj (Option.some.inj h)
      exact .done i hret
    · rename_i hret
      obtain ⟨rfl, rfl⟩ := Prod.mk.inj (Option.some.inj h)
      exact .refused i hret
    · exact nomatch h
  · rename_i i
    obtain ⟨rfl, rfl⟩ := Prod.mk.inj (Option.some.inj h)
    exact .ackLost i
  · exact nomatch h
  · rename_i hexited
    obtain ⟨rfl, rfl⟩ := Prod.mk.inj (Option.some.inj h)
    exact .exit w hexited
  · exact nomatch h

/-! ### The whole fleet -/

/-- The master with its handlers, and the workers. -/
structure Fleet where
  system : System
  workers : List (WorkerIdentity × Worker)

/-- Who moves. -/
inductive Action
  | solve
  | handler (i : ℕ) (c : Choice)
  | worker (j : ℕ) (e : Event)

/-- One step of the worker at an index. -/
def Fleet.stepWorker (s : System) (w : WorkerIdentity × Worker) (e : Event) :
    Option (System × WorkerIdentity × Worker) :=
  (Worker.step w.1 s w.2 e).map fun r => (r.1, w.1, r.2)

/-- One step of the fleet. -/
def Fleet.step (s : Fleet) : Action → Option Fleet
  | .solve => (s.system.step .solve).map fun t => { s with system := t }
  | .handler i c => (s.system.step (.handler i c)).map fun t => { s with system := t }
  | .worker j e => (stepThread Fleet.stepWorker s.system s.workers j e).map fun r =>
      { system := r.1, workers := r.2 }

/-- Workers that have just started, with the master as `Solve` leaves it after the reset. -/
def Fleet.init (system : System) (idents : List WorkerIdentity) : Fleet :=
  { system := system, workers := idents.map fun ident => (ident, .polling) }

/-- **The steps of the fleet.** -/
inductive FleetMove (s : Fleet) : Action → Fleet → Prop
  | solve {t} : s.system.step .solve = some t → FleetMove s .solve { s with system := t }
  | handler {pre h post server h'} (c) : s.system.handlers = pre ++ h :: post →
      HandlerMove s.system.server h server h' →
      FleetMove s (.handler pre.length c)
        { s with system := { s.system with server := server, handlers := pre ++ h' :: post } }
  | worker {pre ident w post e t w'} : s.workers = pre ++ (ident, w) :: post →
      WorkerMove ident s.system w e t w' →
      FleetMove s (.worker pre.length e) { system := t, workers := pre ++ (ident, w') :: post }

theorem Fleet.step_cases {s s' : Fleet} {act : Action} (h : s.step act = some s') :
    FleetMove s act s' := by
  cases act with
  | solve =>
      obtain ⟨t, ht, rfl⟩ := Option.map_eq_some_iff.mp h
      exact .solve ht
  | handler i c =>
      obtain ⟨t, ht, rfl⟩ := Option.map_eq_some_iff.mp h
      obtain ⟨⟨server, hs'⟩, hp, rfl⟩ := Option.map_eq_some_iff.mp ht
      obtain ⟨pre, h, h', post, heq, rfl, rfl, hstep⟩ := stepThread_cases hp
      exact .handler c heq (Handler.move_of_step hstep)
  | worker j e =>
      obtain ⟨⟨t, ws⟩, hp, rfl⟩ := Option.map_eq_some_iff.mp h
      obtain ⟨pre, ⟨ident, w⟩, w', post, heq, rfl, rfl, hstep⟩ := stepThread_cases hp
      obtain ⟨⟨t', w''⟩, hw, hpair⟩ := Option.map_eq_some_iff.mp hstep
      obtain ⟨rfl, rfl⟩ := Prod.mk.inj hpair
      exact .worker heq (Worker.step_cases hw)

/-- What a worker does at the master: nothing, or a call arrives. -/
theorem WorkerMove.system {ident : WorkerIdentity} {s t : System} {w w' : Worker} {e : Event}
    (h : WorkerMove ident s w e t w') :
    t = s ∨ ∃ act, s.step act = some t := by
  cases h with
  | call => exact .inr ⟨.getTask ident, rfl⟩
  | submit r => exact .inr ⟨.submitResult r, rfl⟩
  | _ => exact .inl rfl

/-- **The master's part of a run is a run of the master.** -/
theorem Fleet.system_reachable {guard : Fleet → Action → Prop} {system : System}
    {idents : List WorkerIdentity} {s : Fleet}
    (hr : Reaches Fleet.step guard (Fleet.init system idents) s) :
    Reachable System.step system s.system := by
  refine hr.invariant (fun s => Reachable System.step system s.system) .start ?_
  intro s act s' h _ hs
  cases act with
  | solve =>
      obtain ⟨t, ht, rfl⟩ := Option.map_eq_some_iff.mp hs
      exact h.next trivial ht
  | handler i c =>
      obtain ⟨t, ht, rfl⟩ := Option.map_eq_some_iff.mp hs
      exact h.next trivial ht
  | worker j e =>
      cases Fleet.step_cases hs with
      | worker heq hw =>
          rcases hw.system with heq | ⟨act, hact⟩
          · rw [heq]
            exact h
          · exact h.next trivial hact

end HydraSAT.Cluster
