import HydraSAT.Cluster.Table

/-!
# The worker table and the checkbook

* `Clients.Agrees`: the joint invariant of both structures, for all workers;
* `Clients.Counts`: the counters of the table are those of the calls;
* `Clients.table_agrees`: when no handler is running, a worker is busy with a task exactly when the task
  was given to it and is outstanding, the checkbook has its hostname, and its counters have grown by its
  accepted results.

The table has one task for each worker, so a worker must not ask for a task while it holds one
(`Clients.Asks`).  `table_disagrees` shows what happens to `worker.py` when a `SubmitResult` request does
not get through and it goes on to the next task, and what comes of keys that coincide and of entries
that are BUSY from the start.
-/

namespace HydraSAT.Cluster

open HydraSAT.Lib HydraSAT.Master

/-! ### All workers -/

/-- The worker is not BUSY at the start. -/
def Fresh (wt : WorkerTracker) (w : WorkerIdentity) : Prop :=
  ∀ e, entryOf wt w = some e → e.status ≠ .busy

namespace Clients

/-- A worker asks for a task only when it holds none. -/
def Asks (s : Clients) (act : Action) : Prop :=
  ∀ j, act = .getTask j → ∀ x ∈ s.givenTo j, x ∉ s.server.taskManager.checkbook

/-- **The joint invariant.**  The table and the checkbook agree on every worker, at the control point
of its running call or, if it has none, at rest. -/
structure Agrees (wt : WorkerTracker) (s : Clients) : Prop where
  running : ∀ c ∈ s.calls, returned c.handler = false → ∀ w, s.workers[c.worker]? = some w →
    Phase (Fresh wt w) s.server (s.givenTo c.worker) w c.handler
  quiet : ∀ j w, s.workers[j]? = some w → s.idle j = true →
    Stands (Fresh wt w) s.server (s.givenTo j) w

section Runs

variable {guard : Clients → Action → Prop} {workers : List WorkerIdentity} {cfg : HeuristicConfig}
  {wt : WorkerTracker} {cnf : CNFData} {cubes : List Cube} {s s' : Clients} {act : Action}

/-- What a call has, and a drawn id, are not the same. -/
theorem not_drawn_of_owned (hr : Reaches step guard (.init workers (.init cfg wt cnf cubes)) s)
    {c : Call} (hc : c ∈ s.calls) {x : ℤ} (hx : x ∈ owned c.handler) (hne : x ≠ -1) :
    x ∉ s.solve.call.drawn ∧ ∀ d ∈ s.calls, x ∉ d.handler.call.drawn := by
  have hout := List.count_pos_iff.mpr (handedOut_of_owned hr hc hx hne)
  have hone := (System.sent_le (system_reachable hr) x).trans (TaskManager.born_le _ _)
  have hunsent : ∀ e : EnqueueCubes, x ∈ e.drawn → 0 < e.unsent.count x := by
    intro e he
    cases e with
    | insert id cube rest => exact List.count_pos_iff.mpr he
    | _ => exact absurd he List.not_mem_nil
  simp only [System.sent, System.total, MasterServer.sent, system] at hone
  refine ⟨fun hdrawn => ?_, fun d hd hdrawn => ?_⟩
  · have hpos := hunsent _ hdrawn
    omega
  · have hpos := hunsent _ hdrawn
    have hle := List.single_le_sum (fun _ _ => Nat.zero_le _) _
      (List.mem_map_of_mem (f := fun h => h.call.unsent.count x)
        (List.mem_map_of_mem (f := Call.handler) hd))
    omega

/-- Calls that have a common task are calls of one worker. -/
theorem owner_worker (hr : Reaches step guard (.init workers (.init cfg wt cnf cubes)) s) {c d : Call}
    (hc : c ∈ s.calls) (hd : d ∈ s.calls) {x : ℤ} (hxc : x ∈ owned c.handler)
    (hxd : x ∈ owned d.handler) (hne : x ≠ -1) : c.worker = d.worker := by
  obtain ⟨pre, post, heq⟩ := List.append_of_mem hd
  rw [heq] at hc
  rcases List.mem_append.mp hc with hc | hc
  · exact absurd hxc (owner_unique hr heq hxd hne (.inl hc))
  · rcases List.mem_cons.mp hc with rfl | hc
    · rfl
    · exact absurd hxc (owner_unique hr heq hxd hne (.inr hc))

/-- A handler's move leaves alone the tasks of the other workers. -/
theorem lookup_other (hr : Reaches step guard (.init workers (.init cfg wt cnf cubes)) s)
    {pre post : List Call} {d : Call} (heq : s.calls = pre ++ d :: post) {server : MasterServer}
    {h' : Handler} (hm : HandlerMove s.server d.handler server h') {c : Call} (hc : c ∈ s.calls)
    (hj : c.worker ≠ d.worker) {x : ℤ} (hx : x ∈ owned c.handler) (hne : x ≠ -1) :
    server.taskManager.checkbook.lookup x = s.server.taskManager.checkbook.lookup x := by
  have hd : d ∈ s.calls := by simp [heq]
  refine HandlerMove.lookup_other hm (fun hfetched => ?_) (fun hsub => ?_)
    ((not_drawn_of_owned hr hc hx hne).2 d hd)
  · exact hj (owner_worker hr hc hd hx (List.mem_append_left _ hfetched) hne)
  · have hserves := (orderly hr).serves d hd
    have hsubmits := (orderly hr).submits d hd
    obtain ⟨k, result, h⟩ := d
    cases hm with
    | getTask hg => exact List.not_mem_nil hsub
    | submitResult hm =>
        obtain ⟨r, hresult, hsame, -⟩ := hserves
        have hxr : x = r.taskId := by
          cases hm <;> first
            | (rw [← hsame _ rfl]; exact List.mem_singleton.mp hsub)
            | exact absurd hsub List.not_mem_nil
        obtain ⟨e, he, hek, hmem⟩ := mem_owned_of_given (hsubmits r hresult)
        exact hj ((owner_worker hr hc he hx (hxr ▸ hmem) hne).trans hek)

/-- A call that is running knows its worker. -/
theorem Serves.identified {d : Call} {m m' : MasterServer} {h' : Handler}
    (h : Serves s.workers d) (hm : HandlerMove m d.handler m' h') :
    ∃ w, s.workers[d.worker]? = some w := by
  obtain ⟨j, result, g⟩ := d
  cases hm with
  | getTask hg =>
      obtain ⟨-, hcaller⟩ := h
      cases hg <;> exact ⟨_, hcaller _ rfl⟩
  | submitResult hm =>
      obtain ⟨r, -, -, w, hw, -⟩ := h
      exact ⟨w, hw⟩

/-- The tasks of a worker's own call are not `-1`. -/
theorem ne_of_mem (hr : Reaches step guard (.init workers (.init cfg wt cnf cubes)) s) {x : ℤ}
    (hx : x ∈ s.server.taskManager.checkbook) : x ≠ -1 := by
  have hpos := System.ids_pos (system_reachable hr) (x := x) hx
  omega

/-- **The worker's own call** takes it from phase to phase. -/
theorem phase_move (hr : Reaches step guard (.init workers (.init cfg wt cnf cubes)) s)
    {pre post : List Call} {d : Call} (heq : s.calls = pre ++ d :: post) {server : MasterServer}
    {h' : Handler} (hm : HandlerMove s.server d.handler server h') {w : WorkerIdentity}
    (hw : s.workers[d.worker]? = some w) {fresh : Prop}
    (hphase : Phase fresh s.server (s.givenTo d.worker) w d.handler) :
    Phase fresh server
      (givenTo { s with server := server, calls := pre ++ { d with handler := h' } :: post } d.worker)
      w h' := by
  have hd : d ∈ s.calls := by simp [heq]
  have hgiven : ∀ x, x ∈ givenTo { s with
      server := server, calls := pre ++ { d with handler := h' } :: post } d.worker ↔
      x ∈ s.givenTo d.worker ∨ x ∈ replied h' := fun x => by
    rw [mem_givenTo_exchange heq hm]
    simp
  have hserves := (orderly hr).serves d hd
  have hsubmits := (orderly hr).submits d hd
  have hdrawn : ∀ x ∈ s.givenTo d.worker, x ∉ d.handler.call.drawn := by
    intro x hx
    obtain ⟨c, hc, -, hmem⟩ := mem_givenTo.mp hx
    exact (not_drawn_of_owned hr hc (List.mem_append_right _ hmem) (ne_of_replied hmem)).2 d hd
  obtain ⟨k, result, g⟩ := d
  cases hm with
  | getTask hg =>
      refine GetTaskMove.phase hg (fun u hu => ?_) hphase hgiven (fun task ht => ?_) fun x hx =>
        ne_of_mem hr hx
      · exact Option.some.inj ((hserves.2 u hu).symm.trans hw)
      · have hcarried : s.system.carries (task.taskId, task.literals) :=
          .inl (List.mem_map_of_mem (f := fun t : TaskPayload => (t.taskId, t.literals)) ht)
        exact (System.carried_listed (system_reaches hr) hcarried).mem
  | submitResult hm =>
      obtain ⟨r, hresult, hsame, u, hu, hworker⟩ := hserves
      obtain rfl := Option.some.inj (hu.symm.trans hw)
      exact SubmitMove.phase hm hsame hworker (hsubmits r hresult) hphase
        (fun x => (hgiven x).trans (or_iff_left List.not_mem_nil)) hdrawn

/-- What matters to a running call is with a call of the same worker. -/
theorem Agrees.owner (h : s.Agrees wt)
    (hr : Reaches step guard (.init workers (.init cfg wt cnf cubes)) s) {c : Call} (hc : c ∈ s.calls)
    (hret : returned c.handler = false) {w : WorkerIdentity} (hw : s.workers[c.worker]? = some w) {x : ℤ}
    (hx : x ∈ s.givenTo c.worker ∨ x ∈ fetched c.handler) :
    ∃ e ∈ s.calls, e.worker = c.worker ∧ x ∈ owned e.handler ∧ x ≠ -1 := by
  rcases hx with hx | hx
  · obtain ⟨e, he, hj, hmem⟩ := mem_givenTo.mp hx
    exact ⟨e, he, hj, List.mem_append_right _ hmem, ne_of_replied hmem⟩
  · exact ⟨c, hc, rfl, List.mem_append_left _ hx,
      ne_of_mem hr ((h.running c hc hret w hw).fetched_mem hx)⟩

/-- `Solve` leaves the table alone, and in the checkbook only what it has drawn changes. -/
theorem Agrees.solve {server : MasterServer} {p : Solve} (h : s.Agrees wt)
    (hr : Reaches step guard (.init workers (.init cfg wt cnf cubes)) s)
    (hp : SolveMove s.server s.solve server p) : Agrees wt { s with server := server, solve := p } := by
  have htracker : server.workerTracker = s.server.workerTracker := by
    generalize s.solve = q at hp
    cases hp <;> rfl
  have hbook : ∀ x, x ∉ s.solve.call.drawn →
      server.taskManager.checkbook.lookup x = s.server.taskManager.checkbook.lookup x := by
    intro x hx
    generalize s.solve = q at hp hx
    cases hp with
    | load e tm' e' he => exact enqueueStep_lookup he hx
    | _ => rfl
  refine ⟨fun c hc hret w hw => ?_, fun j w hw hidle => ?_⟩
  · refine (h.running c hc hret w hw).congr (by rw [htracker]) (fun _ => Iff.rfl) fun x hx => ?_
    obtain ⟨e, he, -, hmem, hne⟩ := h.owner hr hc hret hw hx
    exact hbook x (not_drawn_of_owned hr he hmem hne).1
  · have hfree : ∀ x ∈ s.givenTo j,
        server.taskManager.checkbook.lookup x = s.server.taskManager.checkbook.lookup x := by
      intro x hx
      obtain ⟨c, hc, -, hmem⟩ := mem_givenTo.mp hx
      exact hbook x (not_drawn_of_owned hr hc (List.mem_append_right _ hmem) (ne_of_replied hmem)).1
    have hentry : entryOf server.workerTracker w = entryOf s.server.workerTracker w := by
      rw [htracker]
    exact (h.quiet j w hw hidle).congr hentry (fun _ => Iff.rfl) hfree

/-- A call arrives, in the phase that its worker is in. -/
theorem Agrees.arrive {d : Call} (h : s.Agrees wt) (hreplied : replied d.handler = [])
    (hphase : ∀ w, s.workers[d.worker]? = some w →
      Phase (Fresh wt w) s.server (s.givenTo d.worker) w d.handler) :
    Agrees wt { s with calls := s.calls ++ [d] } := by
  have hgiven : ∀ k x, x ∈ givenTo { s with calls := s.calls ++ [d] } k ↔ x ∈ s.givenTo k :=
    fun k x => mem_givenTo_arrive hreplied
  refine ⟨fun c hc hret v hv => ?_, fun k v hv hidle => ?_⟩
  · rcases List.mem_append.mp hc with hc | hnew
    · exact (h.running c hc hret v hv).congr rfl (hgiven _) fun _ _ => rfl
    · obtain rfl := List.mem_singleton.mp hnew
      exact (hphase v hv).congr rfl (hgiven _) fun _ _ => rfl
  · have hold : s.idle k = true := by
      simp only [idle, List.all_append, Bool.and_eq_true] at hidle
      exact hidle.1
    exact (h.quiet k v hv hold).congr rfl (hgiven k) fun _ _ => rfl

/-- A handler moves: its worker is in the next phase, and nothing changes for the others. -/
theorem Agrees.handler {pre post : List Call} {d : Call} {server : MasterServer} {h' : Handler}
    (hid : Distinguished s.workers) (h : s.Agrees wt)
    (hr : Reaches step guard (.init workers (.init cfg wt cnf cubes)) s) (heq : s.calls = pre ++ d :: post)
    (hm : HandlerMove s.server d.handler server h') :
    Agrees wt { s with server := server, calls := pre ++ { d with handler := h' } :: post } := by
  have hd : d ∈ s.calls := by simp [heq]
  have hret := HandlerMove.not_returned hm
  have hserves := (orderly hr).serves d hd
  obtain ⟨w, hw⟩ := hserves.identified hm
  have hphase := h.running d hd hret w hw
  have hown := phase_move hr heq hm hw hphase
  have hentry : ∀ j v, s.workers[j]? = some v → j ≠ d.worker →
      entryOf server.workerTracker v = entryOf s.server.workerTracker v := fun j v hv hj =>
    HandlerMove.entryOf_other hid hm hserves hw hphase hv hj
  have hgiven : ∀ j, j ≠ d.worker → ∀ x, x ∈ givenTo { s with
      server := server, calls := pre ++ { d with handler := h' } :: post } j ↔ x ∈ s.givenTo j := by
    intro j hj x
    rw [mem_givenTo_exchange heq hm]
    exact or_iff_left fun hx => hj hx.1.symm
  refine ⟨fun c hc hcret v hv => ?_, fun j v hv hidle => ?_⟩
  · have hcases : c = { d with handler := h' } ∨ c ∈ pre ∨ c ∈ post := by
      rcases List.mem_append.mp hc with hc | hc
      · exact .inr (.inl hc)
      · exact (List.mem_cons.mp hc).imp id .inr
    rcases hcases with rfl | hother
    · obtain rfl := Option.some.inj (hw.symm.trans hv)
      exact hown
    · have hcs : c ∈ s.calls := by
        rw [heq]
        exact hother.elim (List.mem_append_left _) fun hc =>
          List.mem_append_right _ (List.mem_cons_of_mem _ hc)
      have hj : c.worker ≠ d.worker := fun hsame => by
        rw [(orderly hr).others heq hret hother hsame] at hcret
        exact Bool.noConfusion hcret
      refine (h.running c hcs hcret v hv).congr (hentry _ v hv hj) (hgiven _ hj) fun x hx => ?_
      obtain ⟨e, he, hej, hmem, hne⟩ := h.owner hr hcs hcret hv hx
      exact lookup_other hr heq hm he (hej ▸ hj) hmem hne
  · have hall := List.all_eq_true.mp hidle
    by_cases hj : j = d.worker
    · subst hj
      obtain rfl := Option.some.inj (hw.symm.trans hv)
      refine hown.at_rest ?_
      have hself := hall { d with handler := h' } (List.mem_append_right _ List.mem_cons_self)
      simpa using hself
    · have hold : s.idle j = true := by
        refine List.all_eq_true.mpr fun c hc => ?_
        by_cases hcd : c = d
        · rw [hcd, Bool.or_eq_true]
          exact .inl (bne_iff_ne.mpr (Ne.symm hj))
        · rw [heq] at hc
          exact hall c (mem_exchange hc hcd)
      have hfree : ∀ x ∈ s.givenTo j,
          server.taskManager.checkbook.lookup x = s.server.taskManager.checkbook.lookup x := by
        intro x hx
        obtain ⟨e, he, hej, hmem⟩ := mem_givenTo.mp hx
        exact lookup_other hr heq hm he (hej ▸ hj) (List.mem_append_right _ hmem) (ne_of_replied hmem)
      exact (h.quiet j v hv hold).congr (hentry j v hv hj) (hgiven j hj) hfree

/-- **Every step keeps the agreement.** -/
theorem Agrees.step (hid : Distinguished s.workers)
    (hr : Reaches step guard (.init workers (.init cfg wt cnf cubes)) s) (h : s.Agrees wt)
    (hg : s.Asks act) (hs : s.step act = some s') : s'.Agrees wt := by
  cases move_of_step hs with
  | solve hp => exact h.solve hr hp
  | getTask j w hw hidle =>
      refine h.arrive rfl fun v hv => ?_
      obtain rfl := Option.some.inj (hw.symm.trans hv)
      exact (h.quiet j w hw hidle).resolve_right fun ⟨x, hx⟩ => hg j rfl x hx.mine hx.booked.mem
  | submitResult j w r hw hidle _ _ =>
      refine h.arrive rfl fun v hv => ?_
      obtain rfl := Option.some.inj (hw.symm.trans hv)
      exact h.quiet j w hw hidle
  | handler ch heq hm => exact Agrees.handler hid h hr heq hm

theorem workers_init (hr : Reaches step guard (.init workers (.init cfg wt cnf cubes)) s) :
    s.workers = workers := by
  refine hr.invariant (fun s => s.workers = workers) rfl ?_
  intro s act s' h _ hs
  cases move_of_step hs <;> exact h

theorem agrees (hid : Distinguished workers)
    (hr : Reaches step Asks (.init workers (.init cfg wt cnf cubes)) s) : s.Agrees wt := by
  refine hr.invariant' (Agrees wt) ⟨fun c hc => absurd hc List.not_mem_nil, fun j w _ _ => ?_⟩ ?_
  · refine .inl ⟨fun x hx => absurd hx List.not_mem_nil, fun hfresh x ⟨e, he, hbusy, _⟩ => ?_⟩
    exact hfresh e he hbusy
  · intro s act s' hr h hg hs
    exact h.step ((workers_init hr).symm ▸ hid) hr hg hs

/-! ### The counters of a worker -/

/-- The result has been entered in the worker table. -/
def booked : SubmitResult → Bool
  | .remove _ => false
  | .release _ _ _ => false
  | .updateWorker _ _ _ => false
  | .returned ok => ok
  | _ => true

/-- The result has been accepted. -/
def accepted : SubmitResult → Bool
  | .remove _ => false
  | .returned ok => ok
  | _ => true

/-- The call submits a result of the given kind, which has come to a given point. -/
def submits (reached : SubmitResult → Bool) (failed : Bool) (c : Call) : Bool :=
  match c.result, c.handler with
  | some r, .submitResult g => r.timedOut == failed && reached g
  | _, _ => false

/-- The number of results of a worker, timeouts or others, that have come to a given point. -/
def resultsFrom (reached : SubmitResult → Bool) (s : Clients) (j : ℕ) (failed : Bool) : ℕ :=
  s.calls.countP fun c => c.worker == j && submits reached failed c

/-- The results accepted from a worker. -/
abbrev acceptedFrom (s : Clients) (j : ℕ) (failed : Bool) : ℕ := resultsFrom accepted s j failed

theorem tallyOf_modify (wt : WorkerTracker) (w : WorkerIdentity) (failed : Bool)
    {f : WorkerState → WorkerState}
    (hf : ∀ e, (f e).tasksCompleted = e.tasksCompleted ∧ (f e).tasksFailed = e.tasksFailed) :
    tallyOf failed (wt.modify w.hostname w.workerId f) w = tallyOf failed wt w := by
  unfold tallyOf
  rw [entryOf_modify_self]
  cases entryOf wt w with
  | none => rfl
  | some e =>
      obtain ⟨hc, hf⟩ := hf e
      cases failed with
      | true => exact hf
      | false => exact hc

theorem tallyOf_register (wt : WorkerTracker) (w : WorkerIdentity) (failed : Bool) :
    tallyOf failed (wt.registerWorker w.workerId w.hostname) w = tallyOf failed wt w := by
  obtain ⟨e, he, hold | ⟨hnone, -, hc, hf⟩⟩ := entryOf_register_self wt w
  · unfold tallyOf
    rw [he, hold]
  · unfold tallyOf
    rw [he, hnone]
    cases failed with
    | true => exact hf
    | false => exact hc

/-- `UpdateWorkerResult` counts the result, for a worker that is in the table. -/
theorem tallyOf_update (wt : WorkerTracker) (w : WorkerIdentity) (timedOut failed : Bool)
    (hreg : ∃ e, entryOf wt w = some e) :
    tallyOf failed (wt.updateWorkerResult w.workerId w.hostname timedOut) w =
      if timedOut = failed then int32 (tallyOf failed wt w + 1) else tallyOf failed wt w := by
  obtain ⟨e, he⟩ := hreg
  unfold tallyOf
  rw [WorkerTracker.updateWorkerResult, entryOf_modify_self, he]
  cases timedOut <;> cases failed <;> rfl

/-- `UpdateWorkerResult` books the result of its handler, on the counter for its kind. -/
theorem Settling.books {m : MasterServer} {w : WorkerIdentity} {given : List ℤ} {r : TaskResult}
    {cube : Cube} {g' : SubmitResult} (h : Settling m given w r.taskId)
    (hworker : r.workerId = w.workerId) (hg' : booked g' = true) (k : ℕ) (failed : Bool) :
    (tallyOf failed (m.updateWorker r w.hostname).workerTracker w = tallyOf failed m.workerTracker w ∧
        submits booked failed ⟨k, some r, .submitResult g'⟩ =
          submits booked failed ⟨k, some r, .submitResult (.updateWorker r w.hostname cube)⟩) ∨
      (tallyOf failed (m.updateWorker r w.hostname).workerTracker w =
          int32 (tallyOf failed m.workerTracker w + 1) ∧
        submits booked failed ⟨k, some r, .submitResult (.updateWorker r w.hostname cube)⟩ = false ∧
        submits booked failed ⟨k, some r, .submitResult g'⟩ = true) := by
  obtain ⟨-, e, he, -⟩ := h
  have hupd := tallyOf_update m.workerTracker w r.timedOut failed ⟨e, he⟩
  have hafter : submits booked failed ⟨k, some r, .submitResult g'⟩ = (r.timedOut == failed) := by
    show (r.timedOut == failed && booked g') = _
    rw [hg', Bool.and_true]
  have hbefore : submits booked failed
      ⟨k, some r, .submitResult (.updateWorker r w.hostname cube)⟩ = false := Bool.and_false _
  rw [hbefore, hafter]
  show (tallyOf failed (m.workerTracker.updateWorkerResult r.workerId w.hostname r.timedOut) w = _ ∧ _) ∨
    (tallyOf failed (m.workerTracker.updateWorkerResult r.workerId w.hostname r.timedOut) w = _ ∧ _)
  rw [hworker, hupd]
  by_cases hto : r.timedOut = failed
  · exact .inr ⟨if_pos hto, rfl, beq_iff_eq.mpr hto⟩
  · exact .inl ⟨if_neg hto, beq_eq_false_iff_ne.mpr hto⟩

/-- **A move books one result or none.** -/
theorem HandlerMove.tally {d : Call} {m m' : MasterServer} {h' : Handler}
    (hm : HandlerMove m d.handler m' h') (hserves : Serves workers d) {fresh : Prop} {given : List ℤ}
    {w : WorkerIdentity} (hw : workers[d.worker]? = some w)
    (hphase : Phase fresh m given w d.handler) (failed : Bool) :
    (tallyOf failed m'.workerTracker w = tallyOf failed m.workerTracker w ∧
        submits booked failed { d with handler := h' } = submits booked failed d) ∨
      (tallyOf failed m'.workerTracker w = int32 (tallyOf failed m.workerTracker w + 1) ∧
        submits booked failed d = false ∧ submits booked failed { d with handler := h' } = true) := by
  obtain ⟨k, result, g⟩ := d
  cases hm with
  | getTask hg =>
      obtain ⟨hnone, hcaller⟩ := hserves
      have hsame : ∀ u, callerOf _ = some u → u = w := fun u hu =>
        Option.some.inj ((hcaller u hu).symm.trans hw)
      have hnone : result = none := hnone
      subst hnone
      refine .inl ⟨?_, rfl⟩
      cases hg with
      | register u =>
          obtain rfl := hsame u rfl
          exact tallyOf_register _ _ _
      | assign u task =>
          obtain rfl := hsame u rfl
          exact tallyOf_modify _ _ _ fun _ => ⟨rfl, rfl⟩
      | setIdle u =>
          obtain rfl := hsame u rfl
          exact tallyOf_modify _ _ _ fun _ => ⟨rfl, rfl⟩
      | _ => rfl
  | submitResult hm =>
      obtain ⟨r, hresult, hsame, u, hu, hworker⟩ := hserves
      obtain rfl := Option.some.inj (hu.symm.trans hw)
      have hresult : result = some r := hresult
      subst hresult
      cases hm with
      | timedOut r' hostname cube _ =>
          obtain rfl := hsame r' rfl
          obtain ⟨hsettling, rfl⟩ := hphase
          exact Settling.books hsettling hworker rfl k failed
      | parsed r' hostname cube val _ _ =>
          obtain rfl := hsame r' rfl
          obtain ⟨hsettling, rfl⟩ := hphase
          exact Settling.books hsettling hworker rfl k failed
      | unparsed r' hostname cube _ _ =>
          obtain rfl := hsame r' rfl
          obtain ⟨hsettling, rfl⟩ := hphase
          exact Settling.books hsettling hworker rfl k failed
      | _ => exact .inl ⟨rfl, rfl⟩

/-- The counters of the table are those of the calls. -/
def Counts (wt : WorkerTracker) (s : Clients) : Prop :=
  ∀ j w, s.workers[j]? = some w → ∀ failed, tallyOf failed s.server.workerTracker w =
    int32 (tallyOf failed wt w + resultsFrom booked s j failed)

theorem resultsFrom_arrive {reached : SubmitResult → Bool} {c : Call} {failed : Bool} (j : ℕ)
    (hc : submits reached failed c = false) :
    resultsFrom reached { s with calls := s.calls ++ [c] } j failed = resultsFrom reached s j failed := by
  simp [resultsFrom, hc]

theorem Counts.step (hid : Distinguished s.workers)
    (hr : Reaches Clients.step guard (.init workers (.init cfg wt cnf cubes)) s) (hagrees : s.Agrees wt)
    (h : s.Counts wt) (hs : s.step act = some s') : s'.Counts wt := by
  intro j v hv failed
  cases move_of_step hs with
  | @solve server p hp =>
      have htracker : server.workerTracker = s.server.workerTracker := by
        generalize s.solve = q at hp
        cases hp <;> rfl
      show tallyOf failed server.workerTracker v = _
      rw [htracker]
      exact h j v hv failed
  | getTask k w hw _ =>
      rw [resultsFrom_arrive j rfl]
      exact h j v hv failed
  | submitResult k w r hw _ _ _ =>
      rw [resultsFrom_arrive j (by simp [Clients.submits, booked])]
      exact h j v hv failed
  | @handler pre d post server h' ch heq hm =>
      have hd : d ∈ s.calls := by simp [heq]
      have hserves := (orderly hr).serves d hd
      obtain ⟨w, hw⟩ := hserves.identified hm
      have hphase := hagrees.running d hd (HandlerMove.not_returned hm) w hw
      have hcalls : ∀ c : Call, resultsFrom booked { s with
          server := server, calls := pre ++ c :: post } j failed =
          (pre.countP fun c => c.worker == j && Clients.submits booked failed c) +
            ((post.countP fun c => c.worker == j && Clients.submits booked failed c) +
              if (c.worker == j && Clients.submits booked failed c) = true then 1 else 0) := fun c => by
        unfold resultsFrom
        rw [List.countP_append, List.countP_cons]
      have hold : resultsFrom booked s j failed =
          resultsFrom booked { s with server := server, calls := pre ++ d :: post } j failed := by
        rw [← heq]
        rfl
      have hbefore := h j v hv failed
      rw [hold, hcalls d] at hbefore
      rw [hcalls { d with handler := h' }]
      by_cases hj : j = d.worker
      · subst hj
        obtain rfl := Option.some.inj (hw.symm.trans hv)
        rcases HandlerMove.tally hm hserves hw hphase failed with ⟨htally, hsame⟩ | ⟨htally, hnot, hyes⟩
        · rw [hsame]
          exact htally.trans hbefore
        · simp only [hnot, Bool.and_false, Bool.false_eq_true, if_false, Nat.add_zero] at hbefore
          show tallyOf failed server.workerTracker w = _
          rw [htally, hbefore, int32_add]
          simp only [hyes, beq_self_eq_true, Bool.and_self, if_true, Nat.cast_add, Nat.cast_one,
            add_assoc]
      · have hentry := HandlerMove.entryOf_other hid hm hserves hw hphase hv hj
        have hne : (d.worker == j) = false := by simpa using Ne.symm hj
        simp only [hne, Bool.false_and] at hbefore ⊢
        show tallyOf failed server.workerTracker v = _
        unfold tallyOf at hbefore ⊢
        rw [hentry]
        exact hbefore

theorem counts (hid : Distinguished workers)
    (hcounters : ∀ w ∈ workers, ∀ failed, InInt32 (tallyOf failed wt w))
    (hr : Reaches step Asks (.init workers (.init cfg wt cnf cubes)) s) : s.Counts wt := by
  refine hr.invariant' (Counts wt) (fun j w hw failed => ?_) ?_
  · show tallyOf failed wt w = int32 (tallyOf failed wt w + 0)
    rw [add_zero, int32_of_range (hcounters w (List.mem_of_getElem? hw) failed)]
  · intro s act s' hr h _ hs
    exact h.step ((workers_init hr).symm ▸ hid) hr (agrees hid hr) hs

/-- **The worker table agrees with the checkbook.**  When no handler is running, a worker is BUSY with
a task exactly when the task was given to it and is outstanding, the checkbook then has its hostname,
and its counters have grown by its accepted results. -/
theorem table_agrees (hid : Distinguished workers) (hfresh : ∀ w ∈ workers, Fresh wt w)
    (hcounters : ∀ w ∈ workers, ∀ failed, InInt32 (tallyOf failed wt w))
    (hr : Reaches step Asks (.init workers (.init cfg wt cnf cubes)) s)
    (hquiet : ∀ c ∈ s.calls, returned c.handler = true) {j : ℕ} {w : WorkerIdentity}
    (hw : workers[j]? = some w) :
    (∀ t, BusyWith s.server.workerTracker w t ↔
      t ∈ s.givenTo j ∧ t ∈ s.server.taskManager.checkbook) ∧
    (∀ t, BusyWith s.server.workerTracker w t → BookedFor s.server w t) ∧
    ∀ failed, tallyOf failed s.server.workerTracker w =
      int32 (tallyOf failed wt w + s.acceptedFrom j failed) := by
  have hws := workers_init hr
  have hidle : s.idle j = true :=
    List.all_eq_true.mpr fun c hc => by rw [hquiet c hc, Bool.or_true]
  have hstands := (agrees hid hr).quiet j w (hws ▸ hw) hidle
  have hrest : Resting (Fresh wt w) s.server (s.givenTo j) w →
      (∀ x ∈ s.givenTo j, x ∉ s.server.taskManager.checkbook) ∧
        ∀ x, ¬BusyWith s.server.workerTracker w x :=
    fun h => ⟨h.1, h.2 (hfresh w (List.mem_of_getElem? hw))⟩
  refine ⟨fun t => ?_, fun t hbusy => ?_, fun failed => ?_⟩
  · rcases hstands with hr | ⟨x, hx⟩
    · exact ⟨fun hbusy => absurd hbusy ((hrest hr).2 t), fun h => absurd h.2 ((hrest hr).1 t h.1)⟩
    · refine ⟨fun ⟨e, he, _, hid⟩ => ?_, fun h => hx.only t h.1 h.2 ▸ hx.busy⟩
      obtain ⟨e', he', -, hid'⟩ := hx.busy
      obtain rfl := Option.some.inj (he.symm.trans he')
      obtain rfl := hid.symm.trans hid'
      exact ⟨hx.mine, hx.booked.mem⟩
  · rcases hstands with hr | ⟨x, hx⟩
    · exact absurd hbusy ((hrest hr).2 t)
    · obtain ⟨e, he, -, hid⟩ := hbusy
      obtain ⟨e', he', -, hid'⟩ := hx.busy
      obtain rfl := Option.some.inj (he.symm.trans he')
      obtain rfl := hid.symm.trans hid'
      exact hx.booked
  · rw [counts hid hcounters hr j w (hws ▸ hw) failed]
    -- at rest, what has been accepted has been booked
    have hsame : resultsFrom booked s j failed = s.acceptedFrom j failed := by
      refine List.countP_congr fun c hc => ?_
      have hret := hquiet c hc
      obtain ⟨k, result, h⟩ := c
      cases h with
      | getTask g => cases result <;> exact Iff.rfl
      | submitResult g =>
          cases g with
          | returned ok => cases result <;> exact Iff.rfl
          | _ => exact Bool.noConfusion hret
    rw [hsame]

end Runs

/-- `Asks`, evaluated. -/
def asksCheck (s : Clients) : Action → Bool
  | .getTask j => (s.givenTo j).all fun x => !decide (x ∈ s.server.taskManager.checkbook.keys)
  | _ => true

theorem asks_of_check {s : Clients} {act : Action} (h : s.asksCheck act = true) : s.Asks act := by
  rintro j rfl x hx hmem
  have hnot := List.all_eq_true.mp h x hx
  simp [AList.mem_keys.mp hmem] at hnot

/-- A worker with the same id on another host. -/
def workerB : WorkerIdentity := { workerId := "a", hostname := "node-2" }

/-- Two workers take a task each, and the first submits its result. -/
def oneEach : List Action :=
  [List.replicate 11 .solve, [.getTask 0, .getTask 1], List.replicate 6 (.handler 0 .go),
    List.replicate 6 (.handler 1 .go), [.submitResult 0 (answer 1 "2")],
    List.replicate 6 (.handler 2 .go)].flatten

theorem table_agrees_oneEach :
    ∃ s : Clients, s.givenTo 0 = [1] ∧ s.givenTo 1 = [2] ∧ ¬BusyWith s.server.workerTracker workerA 1 ∧
      BusyWith s.server.workerTracker workerB 2 ∧ tallyOf false s.server.workerTracker workerA = 1 := by
  have hrun : (exec (fun s a => if asksCheck s a then step s a else none)
      (.init [workerA, workerB] (.init defaultConfig .new sevenVars [[1], [-1]])) oneEach).map (fun s =>
        (s.givenTo 0, s.givenTo 1, s.server.taskManager.checkbook.keys,
          s.calls.all fun c => returned c.handler, s.acceptedFrom 0 false)) =
        some ([1], [2], [2], true, 1) := by
    decide +kernel
  obtain ⟨s, hs, htuple⟩ := Option.map_eq_some_iff.mp hrun
  obtain ⟨hzero, htuple⟩ := Prod.mk.inj htuple
  obtain ⟨hone, htuple⟩ := Prod.mk.inj htuple
  obtain ⟨hkeys, htuple⟩ := Prod.mk.inj htuple
  obtain ⟨hquiet, haccepted⟩ := Prod.mk.inj htuple
  have hr := Reaches.of_exec_checked (fun _ _ => asks_of_check) hs
  have hid : Distinguished [workerA, workerB] := ⟨by decide, by decide⟩
  have hnone : ∀ w, entryOf .new w = none := fun _ => rfl
  have hcounters : ∀ w ∈ [workerA, workerB], ∀ failed, InInt32 (tallyOf failed .new w) := by
    intro w _ failed
    show InInt32 0
    unfold InInt32
    omega
  have hagrees := fun j w hw => table_agrees hid
    (fun w _ e he => absurd ((hnone w).symm.trans he).symm (Option.some_ne_none e)) hcounters hr
    (fun c hc => List.all_eq_true.mp hquiet c hc) (j := j) (w := w) hw
  refine ⟨s, hzero, hone, fun hbusy => ?_, ?_, ?_⟩
  · have hmem := (((hagrees 0 workerA rfl).1 1).mp hbusy).2
    rw [AList.mem_keys, hkeys] at hmem
    exact absurd hmem (by decide)
  · refine ((hagrees 1 workerB rfl).1 2).mpr ⟨?_, ?_⟩
    · rw [hone]
      exact List.mem_cons_self
    · rw [AList.mem_keys, hkeys]
      exact List.mem_cons_self
  · rw [(hagrees 0 workerA rfl).2.2 false, haccepted]
    unfold tallyOf
    rw [hnone]
    decide

end Clients

/-! ### Where they disagree -/

/-- No reply is lost in the step. -/
def Fleet.Replies (s : Fleet) (act : Action) : Prop :=
  ∀ j, act = .worker j .rpcError → ∀ ident i,
    s.workers[j]? ≠ some (ident, .waiting i) ∧ s.workers[j]? ≠ some (ident, .awaiting i)

/-- `Replies`, evaluated. -/
def Fleet.repliesCheck (s : Fleet) : Action → Bool
  | .worker j .rpcError =>
      match s.workers[j]? with
      | some (_, .waiting _) => false
      | some (_, .awaiting _) => false
      | _ => true
  | _ => true

theorem Fleet.replies_of_check {s : Fleet} {act : Action} (h : s.repliesCheck act = true) :
    s.Replies act := by
  rintro j rfl ident i
  constructor
  · intro hj
    simp only [Fleet.repliesCheck, hj] at h
    exact Bool.noConfusion h
  · intro hj
    simp only [Fleet.repliesCheck, hj] at h
    exact Bool.noConfusion h

/-- After the failed `SubmitResult` request for task 1, the worker sleeps, calls `GetTask` again, and
is given task 2. -/
def secondTask : List Action :=
  [lostResult, List.replicate 4 .solve, [.worker 0 .go, .worker 0 .go],
    List.replicate 6 (.handler 1 .go)].flatten

/-- Two workers with distinct identities and one key. -/
def sameKey : List WorkerIdentity :=
  [{ workerId := "c", hostname := "a\x00b" }, { workerId := "b\x00c", hostname := "a" }]

/-- Each of two workers takes a task. -/
def twoTasks : List Clients.Action :=
  [List.replicate 11 .solve, [.getTask 0], List.replicate 6 (.handler 0 .go), [.getTask 1],
    List.replicate 6 (.handler 1 .go)].flatten

/-- A table from an earlier problem that has a worker as BUSY with task 1. -/
def staleTable : WorkerTracker :=
  (WorkerTracker.new.registerWorker "a" "node-1").assignTask "a" "node-1" 1 [] 30

/-- The task that the table has for a worker, if it has the worker as BUSY. -/
def busyTask (wt : WorkerTracker) (w : WorkerIdentity) : Option ℤ :=
  (entryOf wt w).bind fun e => if e.status = .busy then some e.currentTaskID else none

theorem busyTask_of_busyWith {wt : WorkerTracker} {w : WorkerIdentity} {x : ℤ}
    (h : BusyWith wt w x) : busyTask wt w = some x := by
  obtain ⟨e, he, hbusy, rfl⟩ := h
  simp [busyTask, he, hbusy]

/-- **Three disagreements.**  `worker.py` after a `SubmitResult` request that did not get through is
BUSY with its second task only, also if every reply arrives; of two workers with one key the first is
not BUSY with its own task; and a worker that was BUSY before the problem is BUSY with a task that it
was not given. -/
theorem table_disagrees :
    (∃ s, Reaches Fleet.step Fleet.Replies oneWorkerInit s ∧
      (∀ h ∈ s.system.handlers, returned h = true) ∧ (∃ h ∈ s.system.handlers, 1 ∈ replied h) ∧
      1 ∈ s.system.server.taskManager.checkbook ∧
      ¬BusyWith s.system.server.workerTracker workerA 1) ∧
    (sameKey.Nodup ∧ ∃ s, Reaches Clients.step Clients.Asks
        (.init sameKey (.init defaultConfig .new sevenVars [[1], [-1]])) s ∧
      (∀ c ∈ s.calls, returned c.handler = true) ∧ 1 ∈ s.givenTo 0 ∧
      1 ∈ s.server.taskManager.checkbook ∧
      ∀ w, sameKey[0]? = some w → ¬BusyWith s.server.workerTracker w 1) ∧
    BusyWith staleTable workerA 1 := by
  refine ⟨?_, ⟨by decide, ?_⟩, ?_⟩
  · have hrun : (exec (fun s a => if Fleet.repliesCheck s a then Fleet.step s a else none)
        oneWorkerInit secondTask).map (fun s => (s.system.handlers.all returned,
          s.system.handlers.any fun h => decide (1 ∈ replied h),
          decide (1 ∈ s.system.server.taskManager.checkbook.keys),
          busyTask s.system.server.workerTracker workerA)) = some (true, true, true, some 2) := by
      decide +kernel
    obtain ⟨s, hs, htuple⟩ := Option.map_eq_some_iff.mp hrun
    obtain ⟨hquiet, htuple⟩ := Prod.mk.inj htuple
    obtain ⟨hgiven, htuple⟩ := Prod.mk.inj htuple
    obtain ⟨hkey, hbusy⟩ := Prod.mk.inj htuple
    obtain ⟨h, hh, hmem⟩ := List.any_eq_true.mp hgiven
    refine ⟨s, .of_exec_checked (fun _ _ => Fleet.replies_of_check) hs,
      fun h hh => List.all_eq_true.mp hquiet h hh, ⟨h, hh, of_decide_eq_true hmem⟩,
      AList.mem_keys.mpr (of_decide_eq_true hkey), fun hone => ?_⟩
    rw [busyTask_of_busyWith hone] at hbusy
    exact absurd hbusy (by decide)
  · have hrun : (exec (fun s a => if Clients.asksCheck s a then Clients.step s a else none)
        (.init sameKey (.init defaultConfig .new sevenVars [[1], [-1]])) twoTasks).map (fun s =>
          (s.calls.all fun c => returned c.handler, s.givenTo 0,
            decide (1 ∈ s.server.taskManager.checkbook.keys),
            sameKey[0]?.bind fun w => busyTask s.server.workerTracker w)) =
          some (true, [1], true, some 2) := by
      decide +kernel
    obtain ⟨s, hs, htuple⟩ := Option.map_eq_some_iff.mp hrun
    obtain ⟨hquiet, htuple⟩ := Prod.mk.inj htuple
    obtain ⟨hgiven, htuple⟩ := Prod.mk.inj htuple
    obtain ⟨hkey, hbusy⟩ := Prod.mk.inj htuple
    refine ⟨s, .of_exec_checked (fun _ _ => Clients.asks_of_check) hs,
      fun c hc => List.all_eq_true.mp hquiet c hc, hgiven ▸ List.mem_cons_self,
      AList.mem_keys.mpr (of_decide_eq_true hkey), fun w hw hone => ?_⟩
    rw [hw, Option.bind_some, busyTask_of_busyWith hone] at hbusy
    exact absurd hbusy (by decide)
  · exact ⟨_, rfl, rfl, rfl⟩

end HydraSAT.Cluster
