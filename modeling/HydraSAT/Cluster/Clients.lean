import Mathlib.Algebra.BigOperators.Ring.Finset
import HydraSAT.Cluster.Delivery
import HydraSAT.Master.Bookkeeping

/-!
# Clients of the master

Any number of workers against the master while it solves one problem, where every reply arrives.  All
that is asked of a worker is that it makes one call at a time and submits only tasks that it was
given; what it submits for them, how often, and when is its own affair.  The loop of `worker.py` is
one such client.

* `Clients.step`: the master's steps, and the calls, each with the worker that makes it;
* `ClientsMove` lists what a step can do;
* `Clients.system_reaches`: the master sees a run of its own, in which outstanding tasks are submitted
  only after they are handed out;
* `Clients.owner_unique`: a task is with one call at most, hence with one worker.
-/

namespace HydraSAT.Cluster

open HydraSAT.Lib HydraSAT.Master

/-! ### Calls -/

/-- The handler has returned. -/
def returned : Handler → Bool
  | .getTask (.returned _) => true
  | .submitResult (.returned _) => true
  | _ => false

/-- The task that the reply of a returned handler gives to the caller. -/
def replied : Handler → List ℤ
  | .getTask (.returned (some task)) => if task.taskId = -1 then [] else [task.taskId]
  | _ => []

/-- The task that a `GetTask` handler has dequeued. -/
def owned (h : Handler) : List ℤ := fetched h ++ replied h

/-- The identity that a `GetTask` handler has still to use. -/
def callerOf : GetTask → Option WorkerIdentity
  | .register w => some w
  | .checkCap w => some w
  | .select w => some w
  | .stamp w _ => some w
  | .record w _ => some w
  | .assign w _ => some w
  | .setIdle w => some w
  | .returned _ => none

/-- The result that a `SubmitResult` handler has still to use. -/
def resultOf : SubmitResult → Option TaskResult
  | .remove r => some r
  | .release r _ _ => some r
  | .updateWorker r _ _ => some r
  | _ => none

/-- A handler that moves has not returned. -/
theorem HandlerMove.not_returned {s s' : MasterServer} {h h' : Handler} (hm : HandlerMove s h s' h') :
    returned h = false := by
  cases hm with
  | getTask hg => cases hg <;> rfl
  | submitResult hm => cases hm <;> rfl

theorem HandlerMove.replied_nil {s s' : MasterServer} {h h' : Handler} (hm : HandlerMove s h s' h') :
    replied h = [] := by
  cases hm with
  | getTask hg => cases hg <;> rfl
  | submitResult hm => rfl

/-- A call: the worker that makes it, by its index, the result it submits, and its handler. -/
structure Call where
  worker : ℕ
  result : Option TaskResult
  handler : Handler

/-- The master and the calls of the workers so far. -/
structure Clients where
  workers : List WorkerIdentity
  server : MasterServer
  solve : Solve
  calls : List Call

namespace Clients

/-- The master's part. -/
def system (s : Clients) : System :=
  { server := s.server, solve := s.solve, handlers := s.calls.map Call.handler }

/-- The tasks that a worker was given. -/
def givenTo (s : Clients) (j : ℕ) : List ℤ :=
  s.calls.flatMap fun c => if c.worker = j then replied c.handler else []

/-- No call of the worker is running. -/
def idle (s : Clients) (j : ℕ) : Bool := s.calls.all fun c => c.worker != j || returned c.handler

/-- Who moves. -/
inductive Action
  | solve
  | getTask (j : ℕ)
  | submitResult (j : ℕ) (r : TaskResult)
  | handler (i : ℕ) (c : Choice)

/-- One step of the handler of a call. -/
def stepCall (s : MasterServer) (c : Call) (ch : Choice) : Option (MasterServer × Call) :=
  (Handler.step s c.handler ch).map fun p => (p.1, { c with handler := p.2 })

/-- One step. -/
def step (s : Clients) : Action → Option Clients
  | .solve => (Solve.step s.server s.solve).map fun p => { s with server := p.1, solve := p.2 }
  | .getTask j =>
      match s.workers[j]? with
      | some w =>
          if s.idle j then
            some { s with calls := s.calls ++ [⟨j, none, .getTask (.register w)⟩] }
          else none
      | none => none
  | .submitResult j r =>
      match s.workers[j]? with
      | some w =>
          if s.idle j ∧ r.workerId = w.workerId ∧ r.taskId ∈ s.givenTo j then
            some { s with calls := s.calls ++ [⟨j, some r, .submitResult (.remove r)⟩] }
          else none
      | none => none
  | .handler i ch => (stepThread stepCall s.server s.calls i ch).map fun p =>
      { s with server := p.1, calls := p.2 }

/-- The workers before their first call, and the master as `Solve` leaves it after the reset. -/
def init (workers : List WorkerIdentity) (system : System) : Clients :=
  { workers := workers, server := system.server, solve := system.solve, calls := [] }

end Clients

/-- **The steps of the clients.** -/
inductive ClientsMove (s : Clients) : Clients.Action → Clients → Prop
  | solve {server p} : SolveMove s.server s.solve server p →
      ClientsMove s .solve { s with server := server, solve := p }
  | getTask (j w) : s.workers[j]? = some w → s.idle j = true →
      ClientsMove s (.getTask j) { s with calls := s.calls ++ [⟨j, none, .getTask (.register w)⟩] }
  | submitResult (j w r) : s.workers[j]? = some w → s.idle j = true → r.workerId = w.workerId →
      r.taskId ∈ s.givenTo j →
      ClientsMove s (.submitResult j r)
        { s with calls := s.calls ++ [⟨j, some r, .submitResult (.remove r)⟩] }
  | handler {pre d post server h'} (ch) : s.calls = pre ++ d :: post →
      HandlerMove s.server d.handler server h' →
      ClientsMove s (.handler pre.length ch)
        { s with server := server, calls := pre ++ { d with handler := h' } :: post }

namespace Clients

variable {s s' : Clients} {act : Action}

theorem move_of_step (hs : s.step act = some s') : ClientsMove s act s' := by
  cases act with
  | solve =>
      obtain ⟨⟨server, p⟩, hp, rfl⟩ := Option.map_eq_some_iff.mp hs
      exact .solve (Solve.move_of_step hp)
  | getTask j =>
      rw [step] at hs
      split at hs
      · rename_i w hw
        obtain ⟨hidle, hs⟩ := (Option.ite_none_right_eq_some).mp hs
        obtain rfl := Option.some.inj hs
        exact .getTask j w hw hidle
      · exact nomatch hs
  | submitResult j r =>
      rw [step] at hs
      split at hs
      · rename_i w hw
        obtain ⟨⟨hidle, hid, hgiven⟩, hs⟩ := (Option.ite_none_right_eq_some).mp hs
        obtain rfl := Option.some.inj hs
        exact .submitResult j w r hw hidle hid hgiven
      · exact nomatch hs
  | handler i ch =>
      obtain ⟨⟨server, cs⟩, hp, rfl⟩ := Option.map_eq_some_iff.mp hs
      obtain ⟨pre, d, d', post, heq, rfl, rfl, hstep⟩ := stepThread_cases hp
      obtain ⟨⟨server', h'⟩, hh, hpair⟩ := Option.map_eq_some_iff.mp hstep
      obtain ⟨rfl, rfl⟩ := Prod.mk.inj hpair
      exact .handler ch heq (Handler.move_of_step hh)

/-- A step of the clients is one of the master. -/
theorem step_system (hs : s.step act = some s') : ∃ act', s.system.step act' = some s'.system ∧
    ∀ i c, act' = .handler i c → act = .handler i c := by
  cases act with
  | solve =>
      obtain ⟨⟨server, p⟩, hp, rfl⟩ := Option.map_eq_some_iff.mp hs
      refine ⟨.solve, ?_, fun i c h => Master.Action.noConfusion h⟩
      show (Solve.step s.server s.solve).map _ = _
      rw [hp]
      rfl
  | getTask j =>
      cases move_of_step hs with
      | getTask j w hw _ =>
          refine ⟨.getTask w, ?_, fun i c h => Master.Action.noConfusion h⟩
          simp [System.step, system]
  | submitResult j r =>
      cases move_of_step hs with
      | submitResult j w r hw _ _ _ =>
          refine ⟨.submitResult r, ?_, fun i c h => Master.Action.noConfusion h⟩
          simp [System.step, system]
  | handler i ch =>
      obtain ⟨⟨server, cs⟩, hp, rfl⟩ := Option.map_eq_some_iff.mp hs
      refine ⟨.handler i ch, ?_, fun i c h => ?_⟩
      · simp only [stepThread, Option.bind_eq_some_iff, Option.map_eq_some_iff] at hp
        obtain ⟨d, hd, ⟨server', d'⟩, hstep, hpair⟩ := hp
        obtain ⟨⟨server'', h'⟩, hh, hpair'⟩ := Option.map_eq_some_iff.mp hstep
        obtain ⟨rfl, rfl⟩ := Prod.mk.inj hpair
        obtain ⟨rfl, rfl⟩ := Prod.mk.inj hpair'
        have hget : (s.calls.map Call.handler)[i]? = some d.handler := by
          rw [List.getElem?_map, hd]
          rfl
        show (stepThread Handler.step s.server (s.calls.map Call.handler) i ch).map _ = _
        rw [stepThread_enabled hget hh]
        simp [system, List.map_set]
      · obtain ⟨rfl, rfl⟩ := Master.Action.handler.inj h
        rfl

/-! ### What a worker was given -/

theorem mem_givenTo {j : ℕ} {x : ℤ} :
    x ∈ s.givenTo j ↔ ∃ c ∈ s.calls, c.worker = j ∧ x ∈ replied c.handler := by
  unfold givenTo
  rw [List.mem_flatMap]
  refine exists_congr fun c => and_congr_right fun _ => ?_
  by_cases hj : c.worker = j
  · simp [hj]
  · simp [hj]

/-- Only the return of a `GetTask` handler gives a task. -/
theorem mem_givenTo_exchange {pre post : List Call} {d : Call} {h' : Handler} {server : MasterServer}
    (heq : s.calls = pre ++ d :: post) (hm : HandlerMove s.server d.handler server h') {j : ℕ} {x : ℤ} :
    x ∈ givenTo { s with server := server, calls := pre ++ { d with handler := h' } :: post } j ↔
      x ∈ s.givenTo j ∨ (d.worker = j ∧ x ∈ replied h') := by
  have hnone := HandlerMove.replied_nil hm
  simp only [givenTo, heq, List.flatMap_append, List.flatMap_cons, List.mem_append, hnone]
  by_cases hj : d.worker = j
  · simp only [hj, if_true, true_and, List.not_mem_nil, false_or]
    tauto
  · simp [hj]

theorem mem_givenTo_arrive {c : Call} (hc : replied c.handler = []) {j : ℕ} {x : ℤ} :
    x ∈ givenTo { s with calls := s.calls ++ [c] } j ↔ x ∈ s.givenTo j := by
  simp [givenTo, hc]

/-! ### Every task is with one call -/

/-- **The calls have what has been handed out.** -/
theorem sum_owned {cfg : HeuristicConfig} {wt : WorkerTracker} {cnf : CNFData} {cubes : List Cube}
    {t : System} (hr : Reachable System.step (.init cfg wt cnf cubes) t) {x : ℤ} (hx : x ≠ -1) :
    (t.handlers.map fun h => (owned h).count x).sum = t.server.history.handedOut.count x := by
  have hzero : t.total (fun m => -(m.history.handedOut.count x : ℤ)) (fun _ => 0)
      (fun h => ((owned h).count x : ℤ)) = 0 := by
    refine hr.invariant (fun t => System.total _ _ _ t = 0) rfl ?_
    intro t act t' h _ hs
    refine (System.total_step hs (fun _ => rfl) (fun _ => rfl) ?_ ?_).trans h
    · intro q server p _ _ hp
      cases hp <;> rfl
    · intro i c h server h' _ _ hm
      cases hm with
      | getTask hg =>
          cases hg with
          | dequeue w task rest _ =>
              simp [MasterServer.dequeue, owned, fetched, replied]
          | capped w _ => simp [owned, fetched, replied, noTask]
          | setIdle w => simp [owned, fetched, replied, noTask]
          | assign w task =>
              by_cases hneg : task.taskId = -1
              · have hne : task.taskId ≠ x := fun heq => hx (heq ▸ hneg)
                simp [owned, fetched, replied, hneg, Ne.symm hx]
              · simp [owned, fetched, replied, hneg]
          | _ => rfl
      | submitResult hm => cases hm <;> rfl
  have hsum : (t.handlers.map fun h => ((owned h).count x : ℤ)).sum =
      ((t.handlers.map fun h => (owned h).count x).sum : ℕ) := by
    rw [Nat.cast_list_sum, List.map_map]
    rfl
  simp only [System.total, add_zero, hsum] at hzero
  omega

/-- What a handler has was handed out. -/
theorem mem_handedOut {cfg : HeuristicConfig} {wt : WorkerTracker} {cnf : CNFData} {cubes : List Cube}
    {t : System} (hr : Reachable System.step (.init cfg wt cnf cubes) t) {h : Handler}
    (hh : h ∈ t.handlers) {x : ℤ} (hx : x ∈ owned h) (hne : x ≠ -1) : x ∈ t.server.history.handedOut := by
  have hsum := sum_owned hr hne
  have hpos := List.count_pos_iff.mpr hx
  have hle := List.single_le_sum (fun _ _ => Nat.zero_le _) _
    (List.mem_map_of_mem (f := fun h => (owned h).count x) hh)
  exact List.count_pos_iff.mp (hsum ▸ lt_of_lt_of_le hpos hle)

/-! ### Calls belong to their workers -/

/-- A call serves the worker that makes it. -/
def Serves (workers : List WorkerIdentity) (c : Call) : Prop :=
  match c.handler with
  | .getTask g => c.result = none ∧ ∀ w, callerOf g = some w → workers[c.worker]? = some w
  | .submitResult g =>
      ∃ r, c.result = some r ∧ (∀ r', resultOf g = some r' → r' = r) ∧
        ∃ w, workers[c.worker]? = some w ∧ r.workerId = w.workerId

/-- A handler serves the same worker after its move. -/
theorem Serves.move {workers : List WorkerIdentity} {d : Call} {m m' : MasterServer} {h' : Handler}
    (h : Serves workers d) (hm : HandlerMove m d.handler m' h') :
    Serves workers { d with handler := h' } := by
  obtain ⟨j, result, g⟩ := d
  cases hm with
  | getTask hg =>
      obtain ⟨hnone, hcaller⟩ := h
      refine ⟨hnone, fun w hw => hcaller w ?_⟩
      cases hg <;> first | exact hw | exact nomatch hw
  | submitResult hm =>
      obtain ⟨r, hr, hresult, hworker⟩ := h
      refine ⟨r, hr, fun r' hr' => hresult r' ?_, hworker⟩
      cases hm <;> first | exact hr' | exact nomatch hr'

/-- What holds of the calls in every state. -/
structure Orderly (s : Clients) : Prop where
  serves : ∀ c ∈ s.calls, Serves s.workers c
  /-- Of two calls of one worker, one has returned. -/
  single : s.calls.Pairwise fun c d =>
    c.worker = d.worker → returned c.handler = true ∨ returned d.handler = true
  submits : ∀ c ∈ s.calls, ∀ r, c.result = some r → r.taskId ∈ s.givenTo c.worker

/-- The other calls of a worker with a running call have returned. -/
theorem Orderly.others {pre post : List Call} {d : Call} (h : s.Orderly)
    (heq : s.calls = pre ++ d :: post) (hd : returned d.handler = false) {c : Call}
    (hc : c ∈ pre ∨ c ∈ post) (hworker : c.worker = d.worker) : returned c.handler = true := by
  have hsingle := h.single
  rw [heq, List.pairwise_append, List.pairwise_cons] at hsingle
  obtain ⟨-, ⟨hpost, -⟩, hpre⟩ := hsingle
  rcases hc with hc | hc
  · exact (hpre c hc d List.mem_cons_self hworker).resolve_right (by rw [hd]; decide)
  · exact (hpost c hc hworker.symm).resolve_left (by rw [hd]; decide)

theorem Orderly.step (h : s.Orderly) (hs : s.step act = some s') : s'.Orderly := by
  cases move_of_step hs with
  | solve _ => exact ⟨h.serves, h.single, h.submits⟩
  | getTask j w hw hidle =>
      refine ⟨forall_arrive h.serves ⟨rfl, fun w' hw' => Option.some.inj hw' ▸ hw⟩, ?_, ?_⟩
      · refine List.pairwise_append.mpr ⟨h.single, List.pairwise_singleton _ _, fun c hc d hd => ?_⟩
        rw [List.mem_singleton.mp hd]
        intro hj
        have hreturned := List.all_eq_true.mp hidle c hc
        simp only [Bool.or_eq_true, bne_iff_ne] at hreturned
        exact .inl (hreturned.resolve_left fun hne => hne hj)
      · intro c hc r hr
        rw [mem_givenTo_arrive rfl]
        refine h.submits c ((List.mem_append.mp hc).resolve_right fun hnew => ?_) r hr
        rw [List.mem_singleton.mp hnew] at hr
        exact nomatch hr
  | submitResult j w r hw hidle hid hgiven =>
      refine ⟨forall_arrive h.serves ⟨r, rfl, fun r' hr' => (Option.some.inj hr').symm, w, hw, hid⟩,
        ?_, ?_⟩
      · refine List.pairwise_append.mpr ⟨h.single, List.pairwise_singleton _ _, fun c hc d hd => ?_⟩
        rw [List.mem_singleton.mp hd]
        intro hj
        have hreturned := List.all_eq_true.mp hidle c hc
        simp only [Bool.or_eq_true, bne_iff_ne] at hreturned
        exact .inl (hreturned.resolve_left fun hne => hne hj)
      · intro c hc r' hr'
        rw [mem_givenTo_arrive rfl]
        rcases List.mem_append.mp hc with hc | hnew
        · exact h.submits c hc r' hr'
        · rw [List.mem_singleton.mp hnew] at hr' ⊢
          obtain rfl := Option.some.inj hr'
          exact hgiven
  | @handler pre d post server h' ch heq hm =>
      have hd := HandlerMove.not_returned hm
      have hothers := fun c hc => @Orderly.others s pre post d h heq hd c hc
      refine ⟨?_, ?_, ?_⟩
      · have hserves := h.serves
        rw [heq] at hserves
        exact forall_exchange hserves ((hserves d (by simp)).move hm)
      · have hsingle := h.single
        rw [heq, List.pairwise_append, List.pairwise_cons] at hsingle
        obtain ⟨hpre, ⟨-, hpost⟩, hcross⟩ := hsingle
        refine List.pairwise_append.mpr ⟨hpre, List.pairwise_cons.mpr ⟨?_, hpost⟩, ?_⟩
        · intro c hc hj
          exact .inr (hothers c (.inr hc) hj.symm)
        · intro c hc e he hj
          rcases List.mem_cons.mp he with rfl | he
          · exact .inl (hothers c (.inl hc) hj)
          · exact hcross c hc e (List.mem_cons_of_mem _ he) hj
      · intro c hc r hr
        rw [mem_givenTo_exchange heq hm]
        refine .inl ?_
        rcases List.mem_append.mp hc with hc | hc
        · exact h.submits c (by rw [heq]; exact List.mem_append_left _ hc) r hr
        · rcases List.mem_cons.mp hc with rfl | hc
          · exact h.submits d (by simp [heq]) r hr
          · exact h.submits c (by rw [heq]; simp [hc]) r hr

variable {guard : Clients → Clients.Action → Prop} {workers : List WorkerIdentity}
  {cfg : HeuristicConfig} {wt : WorkerTracker} {cnf : CNFData} {cubes : List Cube}

theorem orderly (hr : Reaches step guard (.init workers (.init cfg wt cnf cubes)) s) : s.Orderly := by
  refine hr.invariant Orderly ⟨fun c hc => ?_, List.Pairwise.nil, fun c hc => ?_⟩ ?_
  · exact absurd hc List.not_mem_nil
  · exact absurd hc List.not_mem_nil
  · exact fun _ _ _ h _ hs => h.step hs

theorem system_reachable (hr : Reaches step guard (.init workers (.init cfg wt cnf cubes)) s) :
    Reachable System.step (.init cfg wt cnf cubes) s.system := by
  refine hr.invariant (fun s => Reachable System.step (.init cfg wt cnf cubes) s.system) .start ?_
  intro s act s' h _ hs
  obtain ⟨act', hact, -⟩ := step_system hs
  exact h.next trivial hact

/-- A task that a worker was given is with one of its calls. -/
theorem mem_owned_of_given {j : ℕ} {x : ℤ} (hx : x ∈ s.givenTo j) :
    ∃ c ∈ s.calls, c.worker = j ∧ x ∈ owned c.handler := by
  obtain ⟨c, hc, hj, hmem⟩ := mem_givenTo.mp hx
  exact ⟨c, hc, hj, List.mem_append_right _ hmem⟩

theorem ne_of_replied {h : Handler} {x : ℤ} (hx : x ∈ replied h) : x ≠ -1 := by
  unfold replied at hx
  split at hx
  · rename_i task
    by_cases hneg : task.taskId = -1
    · rw [if_pos hneg] at hx
      exact absurd hx List.not_mem_nil
    · rw [if_neg hneg] at hx
      rwa [List.mem_singleton.mp hx]
  · exact absurd hx List.not_mem_nil

/-- What a call has was handed out. -/
theorem handedOut_of_owned (hr : Reaches step guard (.init workers (.init cfg wt cnf cubes)) s)
    {c : Call} (hc : c ∈ s.calls) {x : ℤ} (hx : x ∈ owned c.handler) (hne : x ≠ -1) :
    x ∈ s.server.history.handedOut :=
  mem_handedOut (system_reachable hr) (List.mem_map_of_mem hc) hx hne

/-- **A task is with one call at most.** -/
theorem owner_unique (hr : Reaches step guard (.init workers (.init cfg wt cnf cubes)) s)
    {pre post : List Call} {d : Call} (heq : s.calls = pre ++ d :: post) {x : ℤ}
    (hx : x ∈ owned d.handler) (hne : x ≠ -1) {c : Call} (hc : c ∈ pre ∨ c ∈ post) :
    x ∉ owned c.handler := by
  intro hmem
  have hsum := sum_owned (system_reachable hr) hne
  have hone := List.nodup_iff_count_le_one.mp (System.handedOut_nodup (system_reachable hr)) x
  have hpos := List.count_pos_iff.mpr hx
  have hpos' := List.count_pos_iff.mpr hmem
  simp only [system, heq, List.map_append, List.map_cons, List.sum_append, List.sum_cons] at hsum hone
  rcases hc with hc | hc
  · have hle := List.single_le_sum (fun _ _ => Nat.zero_le _) _
      (List.mem_map_of_mem (f := fun h => (owned h).count x) (List.mem_map_of_mem (f := Call.handler) hc))
    omega
  · have hle := List.single_le_sum (fun _ _ => Nat.zero_le _) _
      (List.mem_map_of_mem (f := fun h => (owned h).count x) (List.mem_map_of_mem (f := Call.handler) hc))
    omega

/-- **The master's part of a run is a run of the master**, in which an outstanding task is submitted
only after it is handed out. -/
theorem system_reaches (hr : Reaches step guard (.init workers (.init cfg wt cnf cubes)) s) :
    Reaches System.step System.KnownAt (.init cfg wt cnf cubes) s.system := by
  refine hr.invariant' (fun s => Reaches System.step System.KnownAt (.init cfg wt cnf cubes) s.system)
    .start ?_
  intro s act s' hr h _ hs
  obtain ⟨act', hact, -⟩ := step_system hs
  refine h.next ?_ hact
  rintro i ch r - hget -
  obtain ⟨c, hc, hh⟩ := List.mem_map.mp (List.mem_of_getElem? hget)
  have hserves := (orderly hr).serves c hc
  unfold Serves at hserves
  rw [hh] at hserves
  obtain ⟨r₀, hr₀, hsame, -⟩ := hserves
  obtain rfl := hsame r rfl
  obtain ⟨d, hd, -, hreplied⟩ := mem_givenTo.mp ((orderly hr).submits c hc r hr₀)
  exact handedOut_of_owned hr hd (List.mem_append_right _ hreplied) (ne_of_replied hreplied)

end Clients

end HydraSAT.Cluster
