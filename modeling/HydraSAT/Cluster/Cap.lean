import HydraSAT.Cluster.Agreement

/-!
# The cap on active workers

`GetTask` compares the number of BUSY workers with `MaxWorkers` before it waits for a task, and makes its
worker BUSY only after it has one.  Handlers that have passed the check and are not done are not counted,
so that the cap holds if they fit under it as well.

* `Clients.occupied`: the workers that hold a task, or may still get one from a running call;
* `Clients.stepFreely`: the calls come as they like.  A worker whose call has failed may call again while
  the handler of that call still runs; `Clients.OneCall` says that it does not;
* `Clients.Room`: when the check is passed, the BUSY workers and the calls past the check leave room;
* `Clients.cap_holds`: in runs with both no more than `MaxWorkers` workers hold a task;
* `Clients.cap_exceeded`: two handlers that pass the check together.
-/

namespace HydraSAT.Cluster

open HydraSAT.Lib HydraSAT.Master

/-- A `GetTask` handler that has passed the check and may still assign a task. -/
def inFlight : Handler → Bool
  | .getTask (.select _) => true
  | .getTask (.stamp _ _) => true
  | .getTask (.record _ _) => true
  | .getTask (.assign _ _) => true
  | _ => false

/-- `BusyWorkerCount`, before it is stored in an `int32`. -/
def busyCount (wt : WorkerTracker) : ℕ := wt.workers.entries.countP fun e => e.2.status == .busy

/-- Only the check lets a handler through. -/
theorem HandlerMove.inFlight_of {m m' : MasterServer} {h h' : Handler} (hm : HandlerMove m h m' h')
    (hin : inFlight h' = true) :
    inFlight h = true ∨ ∃ w, h = .getTask (.checkCap w) ∧ m.capReached = false := by
  cases hm with
  | getTask hg =>
      cases hg with
      | uncapped w hcap => exact .inr ⟨w, rfl, hcap⟩
      | dequeue w task rest _ => exact .inl rfl
      | stamp w task => exact .inl rfl
      | record w task _ => exact .inl rfl
      | _ => exact Bool.noConfusion hin
  | submitResult hm => exact Bool.noConfusion hin

/-- A task comes with the reply of a handler that was past the check. -/
theorem HandlerMove.inFlight_of_replied {m m' : MasterServer} {h h' : Handler}
    (hm : HandlerMove m h m' h') {x : ℤ} (hx : x ∈ replied h') : inFlight h = true := by
  cases hm with
  | getTask hg =>
      cases hg with
      | assign w task => rfl
      | capped w _ => exact absurd hx List.not_mem_nil
      | setIdle w => exact absurd hx List.not_mem_nil
      | _ => exact absurd hx List.not_mem_nil
  | submitResult hm => exact absurd hx List.not_mem_nil

/-- A task enters the checkbook with a drawn id. -/
theorem HandlerMove.mem_checkbook {m m' : MasterServer} {h h' : Handler} (hm : HandlerMove m h m' h')
    {x : ℤ} (hx : x ∈ m'.taskManager.checkbook) (hdrawn : x ∉ h.call.drawn) :
    x ∈ m.taskManager.checkbook := by
  cases hm with
  | getTask hg =>
      cases hg with
      | record w task _ => exact mem_recordAssignment.mp hx
      | _ => exact hx
  | submitResult hm =>
      cases hm with
      | accept r entry _ hl =>
          have hx : x ∈ (m.taskManager.deleteTask r.taskId).checkbook := hx
          unfold TaskManager.deleteTask at hx
          rw [hl] at hx
          exact (AList.mem_erase.mp hx).2
      | enqueue r cube newCubes e tm' e' he =>
          rw [← AList.lookup_isSome] at hx ⊢
          rwa [← enqueueStep_lookup he hdrawn]
      | _ => exact hx

/-- A worker that holds a task is BUSY. -/
theorem Phase.busy {fresh : Prop} {m : MasterServer} {given : List ℤ} {w : WorkerIdentity} {h : Handler}
    (hp : Phase fresh m given w h) {x : ℤ} (hx : x ∈ given) (hmem : x ∈ m.taskManager.checkbook) :
    ∃ y, BusyWith m.workerTracker w y := by
  have hrest : Resting fresh m given w → ∃ y, BusyWith m.workerTracker w y := fun hr =>
    absurd hmem (hr.1 x hx)
  have hstands : Stands fresh m given w → ∃ y, BusyWith m.workerTracker w y := fun hs =>
    hs.elim hrest fun ⟨y, hy⟩ => ⟨y, hy.busy⟩
  cases h with
  | getTask g =>
      cases g with
      | register u => exact hrest hp
      | returned reply => exact hstands hp
      | checkCap u => exact hrest hp.1
      | select u => exact hrest hp.1
      | stamp u task => exact hrest hp.1
      | record u task => exact hrest hp.1
      | assign u task => exact hrest hp.1
      | setIdle u => exact hrest hp.1
  | submitResult g =>
      cases g with
      | remove r => exact hstands hp
      | release r hostname cube => exact ⟨_, hp.1.2⟩
      | updateWorker r hostname cube => exact ⟨_, hp.1.2⟩
      | returned ok => exact hstands hp
      | _ => exact hrest hp

namespace Clients

/-! ### Counting -/

/-- The worker holds a task: one that it was given and that is outstanding. -/
def holdsTask (s : Clients) (j : ℕ) : Bool :=
  (s.givenTo j).any fun x => decide (x ∈ s.server.taskManager.checkbook.keys)

/-- The number of workers that hold a task. -/
def holders (s : Clients) : ℕ := (List.range s.workers.length).countP s.holdsTask

/-- The worker has a call that may still get it a task. -/
def fetches (s : Clients) (j : ℕ) : Bool := s.calls.any fun c => c.worker == j && inFlight c.handler

/-- The number of workers that hold a task or may still get one. -/
def occupied (s : Clients) : ℕ :=
  (List.range s.workers.length).countP fun j => s.holdsTask j || s.fetches j

/-- When a handler passes the check, the BUSY workers and the handlers past the check are fewer than
`MaxWorkers`. -/
def Room (s : Clients) (act : Action) : Prop :=
  ∀ i ch c w, act = .handler i ch → s.calls[i]? = some c → c.handler = .getTask (.checkCap w) →
    s.server.capReached = false →
      (busyCount s.server.workerTracker + s.calls.countP (fun c => inFlight c.handler) : ℤ) <
        s.server.cfg.maxWorkers

theorem holdsTask_iff {s : Clients} {j : ℕ} :
    s.holdsTask j = true ↔ ∃ x ∈ s.givenTo j, x ∈ s.server.taskManager.checkbook := by
  unfold holdsTask
  rw [List.any_eq_true]
  exact exists_congr fun x => and_congr_right fun _ => by rw [decide_eq_true_eq, AList.mem_keys]

theorem fetches_iff {s : Clients} {j : ℕ} :
    s.fetches j = true ↔ ∃ c ∈ s.calls, c.worker = j ∧ inFlight c.handler = true := by
  simp [fetches]

theorem occupied_iff {s : Clients} {j : ℕ} : (s.holdsTask j || s.fetches j) = true ↔
    (∃ x ∈ s.givenTo j, x ∈ s.server.taskManager.checkbook) ∨
      ∃ c ∈ s.calls, c.worker = j ∧ inFlight c.handler = true := by
  rw [Bool.or_eq_true, holdsTask_iff, fetches_iff]

/-! ### Runs -/

section Runs

variable {guard : Clients → Action → Prop} {workers : List WorkerIdentity} {cfg : HeuristicConfig}
  {wt : WorkerTracker} {cnf : CNFData} {cubes : List Cube} {s s' : Clients} {act : Action}

/-- A worker that holds a task is BUSY, whatever its call is doing. -/
theorem Agrees.busy (h : s.Agrees wt) {j : ℕ} {w : WorkerIdentity} (hw : s.workers[j]? = some w)
    (hholds : s.holdsTask j = true) : ∃ x, BusyWith s.server.workerTracker w x := by
  obtain ⟨x, hx, hmem⟩ := holdsTask_iff.mp hholds
  by_cases hidle : s.idle j = true
  · refine (h.quiet j w hw hidle).elim (fun hr => absurd hmem (hr.1 x hx)) ?_
    exact fun ⟨y, hy⟩ => ⟨y, hy.busy⟩
  · obtain ⟨c, hc, hnot⟩ : ∃ c ∈ s.calls, ¬(c.worker != j || returned c.handler) = true := by
      by_contra hall
      refine hidle (List.all_eq_true.mpr fun c hc => ?_)
      by_contra hnot
      exact hall ⟨c, hc, hnot⟩
    rw [Bool.or_eq_true, not_or, bne_iff_ne, not_not] at hnot
    obtain ⟨rfl, hret⟩ := hnot
    exact (h.running c hc (Bool.eq_false_iff.mpr hret) w hw).busy hx hmem

/-- **The workers that hold a task or may get one** are no more than the BUSY ones and the calls past
the check. -/
theorem Agrees.occupied_le (hid : Distinguished s.workers) (h : s.Agrees wt) :
    s.occupied ≤ busyCount s.server.workerTracker + s.calls.countP fun c => inFlight c.handler := by
  have hsplit : s.occupied ≤ (List.range s.workers.length).countP s.holdsTask +
      (List.range s.workers.length).countP s.fetches := by
    unfold occupied
    induction List.range s.workers.length with
    | nil => exact le_refl 0
    | cons j js ih =>
        simp only [List.countP_cons]
        cases s.holdsTask j <;> cases s.fetches j <;> simp <;> omega
  have hget : ∀ j (hj : j < s.workers.length), s.workers[j]? = some s.workers[j] := fun j hj =>
    List.getElem?_eq_getElem hj
  have hbusy : (List.range s.workers.length).countP s.holdsTask ≤ busyCount s.server.workerTracker := by
    refine countP_range_le (fun e : Sigma fun _ : String => WorkerState => e.1)
      (fun j => (s.workers[j]?).elim "" keyOf) (fun j hj k hk heq => ?_) fun j hj hholds => ?_
    · simp only [hget j hj, hget k hk, Option.elim_some] at heq
      exact hid.eq_of_key (hget j hj) (hget k hk) heq
    · obtain ⟨x, e, he, hstatus, -⟩ := h.busy (hget j hj) hholds
      refine ⟨⟨keyOf s.workers[j], e⟩, ?_, ?_, ?_⟩
      · exact (List.mem_dlookup_iff s.server.workerTracker.workers.nodupKeys).mp he
      · rw [hstatus]
        rfl
      · rw [hget j hj]
        rfl
  have hfetch : (List.range s.workers.length).countP s.fetches ≤
      s.calls.countP fun c => inFlight c.handler := by
    refine countP_range_le Call.worker id (fun j _ k _ heq => heq) fun j _ hf => ?_
    obtain ⟨c, hc, hj, hin⟩ := fetches_iff.mp hf
    exact ⟨c, hc, hin, hj⟩
  omega

/-- A worker comes to hold a task, or to have a call that may get it one, only by passing the check. -/
theorem occupied_step (hr : Reaches step guard (.init workers (.init cfg wt cnf cubes)) s)
    (hs : s.step act = some s') {j : ℕ} (hj : (s'.holdsTask j || s'.fetches j) = true) :
    (s.holdsTask j || s.fetches j) = true ∨ ∃ i ch c w, act = .handler i ch ∧ s.calls[i]? = some c ∧
      c.handler = .getTask (.checkCap w) ∧ s.server.capReached = false ∧ c.worker = j := by
  rw [occupied_iff] at hj ⊢
  cases move_of_step hs with
  | @solve server p hp =>
      refine .inl (hj.imp (fun ⟨x, hx, hmem⟩ => ⟨x, hx, ?_⟩) id)
      obtain ⟨c, hc, -, hreplied⟩ := mem_givenTo.mp hx
      have hdrawn := (not_drawn_of_owned hr hc (List.mem_append_right _ hreplied)
        (ne_of_replied hreplied)).1
      have hmem : x ∈ server.taskManager.checkbook := hmem
      generalize s.solve = q at hp hdrawn
      cases hp with
      | load e tm' e' he =>
          rw [← AList.lookup_isSome] at hmem ⊢
          rwa [← enqueueStep_lookup he hdrawn]
      | _ => exact hmem
  | getTask k w _ _ =>
      refine .inl (hj.imp (fun ⟨x, hx, hmem⟩ => ⟨x, (mem_givenTo_arrive rfl).mp hx, hmem⟩) ?_)
      intro ⟨c, hc, hk, hin⟩
      refine ⟨c, (List.mem_append.mp hc).resolve_right fun hnew => ?_, hk, hin⟩
      rw [List.mem_singleton.mp hnew] at hin
      exact Bool.noConfusion hin
  | submitResult k w r _ _ _ _ =>
      refine .inl (hj.imp (fun ⟨x, hx, hmem⟩ => ⟨x, (mem_givenTo_arrive rfl).mp hx, hmem⟩) ?_)
      intro ⟨c, hc, hk, hin⟩
      refine ⟨c, (List.mem_append.mp hc).resolve_right fun hnew => ?_, hk, hin⟩
      rw [List.mem_singleton.mp hnew] at hin
      exact Bool.noConfusion hin
  | @handler pre d post server h' ch heq hm =>
      have hd : d ∈ s.calls := by simp [heq]
      have hat : s.calls[pre.length]? = some d := by simp [heq]
      rcases hj with ⟨x, hx, hmem⟩ | ⟨c, hc, hk, hin⟩
      · rcases (mem_givenTo_exchange heq hm).mp hx with hx | ⟨hk, hx⟩
        · obtain ⟨c, hc, -, hreplied⟩ := mem_givenTo.mp hx
          have hdrawn := (not_drawn_of_owned hr hc (List.mem_append_right _ hreplied)
            (ne_of_replied hreplied)).2 d hd
          exact .inl (.inl ⟨x, hx, HandlerMove.mem_checkbook hm hmem hdrawn⟩)
        · exact .inl (.inr ⟨d, hd, hk, HandlerMove.inFlight_of_replied hm hx⟩)
      · have hcases : c = { d with handler := h' } ∨ c ∈ s.calls := by
          rcases List.mem_append.mp hc with hc | hc
          · exact .inr (by rw [heq]; exact List.mem_append_left _ hc)
          · refine (List.mem_cons.mp hc).imp id fun hc => ?_
            rw [heq]
            exact List.mem_append_right _ (List.mem_cons_of_mem _ hc)
        rcases hcases with rfl | hc
        · rcases HandlerMove.inFlight_of hm hin with hin | ⟨w, hcheck, hcap⟩
          · exact .inl (.inr ⟨d, hd, hk, hin⟩)
          · exact .inr ⟨pre.length, ch, d, w, rfl, hat, hcheck, hcap, hk⟩
        · exact .inl (.inr ⟨c, hc, hk, hin⟩)

theorem cfg_init (hr : Reaches step guard (.init workers (.init cfg wt cnf cubes)) s) :
    s.server.cfg = cfg := by
  refine hr.invariant (fun s => s.server.cfg = cfg) rfl ?_
  intro s act s' h _ hs
  cases move_of_step hs with
  | @solve server p hp =>
      refine Eq.trans ?_ h
      show server.cfg = s.server.cfg
      generalize s.solve = q at hp
      cases hp <;> rfl
  | getTask j w _ _ => exact h
  | submitResult j w r _ _ _ _ => exact h
  | @handler pre d post server h' ch _ hm =>
      refine Eq.trans ?_ h
      show server.cfg = s.server.cfg
      generalize d.handler = g at hm
      cases hm with
      | getTask hg => cases hg <;> rfl
      | submitResult hm => cases hm <;> rfl

/-- In runs in which the check leaves room for the calls that have passed it, no more than `MaxWorkers`
workers hold a task. -/
theorem holders_le (hid : Distinguished workers) (hpos : 0 < cfg.maxWorkers)
    (hr : Reaches step (fun s act => s.Asks act ∧ s.Room act)
      (.init workers (.init cfg wt cnf cubes)) s) : (s.holders : ℤ) ≤ cfg.maxWorkers := by
  have hoccupied : (s.occupied : ℤ) ≤ cfg.maxWorkers := by
    refine hr.invariant' (fun s => (s.occupied : ℤ) ≤ cfg.maxWorkers) ?_ ?_
    · have hzero : occupied (.init workers (.init cfg wt cnf cubes)) = 0 :=
        List.countP_eq_zero.mpr fun j _ => Bool.false_ne_true
      rw [hzero]
      exact le_of_lt hpos
    · intro s act s' hr hle hg hs
      have hworkers : s'.workers = s.workers := by
        cases move_of_step hs <;> rfl
      unfold occupied at hle ⊢
      rw [hworkers]
      by_cases hpass : ∃ i ch c w, act = .handler i ch ∧ s.calls[i]? = some c ∧
          c.handler = .getTask (.checkCap w) ∧ s.server.capReached = false
      · -- the one step that adds a worker
        obtain ⟨i, ch, c, w, rfl, hget, hcheck, hcap⟩ := hpass
        have hroom := hg.2 i ch c w rfl hget hcheck hcap
        rw [cfg_init hr] at hroom
        have hws : s.workers = workers := workers_init hr
        have hbound := (agrees hid (hr.mono fun _ _ h => h.1)).occupied_le (hws ▸ hid)
        have hone : (List.range s.workers.length).countP (fun j => s'.holdsTask j || s'.fetches j) ≤
            s.occupied + (List.range s.workers.length).count c.worker := by
          refine countP_le_add_count (fun j hj => ?_) _
          refine (occupied_step hr hs hj).imp id fun ⟨i', ch', c', w', hact, hget', _, _, hk⟩ => ?_
          obtain ⟨rfl, -⟩ := Action.handler.inj hact
          obtain rfl := Option.some.inj (hget.symm.trans hget')
          exact hk.symm
        have hcount : (List.range s.workers.length).count c.worker ≤ 1 :=
          List.nodup_iff_count_le_one.mp List.nodup_range _
        omega
      · refine le_trans (Int.ofNat_le.mpr (List.countP_mono_left fun j _ hj => ?_)) hle
        refine (occupied_step hr hs hj).resolve_right ?_
        exact fun ⟨i, ch, c, w, hact, hget, hcheck, hcap, _⟩ =>
          hpass ⟨i, ch, c, w, hact, hget, hcheck, hcap⟩
  have hle : s.holders ≤ s.occupied :=
    List.countP_mono_left fun j _ hj => by rw [hj, Bool.true_or]
  omega

/-- One step when nothing is asked of the workers: a call arrives from any of them at any time. -/
def stepFreely (s : Clients) : Action → Option Clients
  | .getTask j => (s.workers[j]?).map fun w =>
      { s with calls := s.calls ++ [⟨j, none, .getTask (.register w)⟩] }
  | .submitResult j r => (s.workers[j]?).map fun _ =>
      { s with calls := s.calls ++ [⟨j, some r, .submitResult (.remove r)⟩] }
  | act => s.step act

/-- A worker calls when no handler of an earlier call of it runs, and it submits, under its own name,
tasks that it was given. -/
def OneCall (s : Clients) (act : Action) : Prop :=
  (∀ j, act = .getTask j → s.idle j = true) ∧
    ∀ j r, act = .submitResult j r →
      s.idle j = true ∧ (∀ w, s.workers[j]? = some w → r.workerId = w.workerId) ∧ r.taskId ∈ s.givenTo j

/-- **The free steps with one call at a time** are the steps of the clients. -/
theorem step_iff : s.step act = some s' ↔ s.OneCall act ∧ s.stepFreely act = some s' := by
  have hother : (∀ j, act ≠ .getTask j) → (∀ j r, act ≠ .submitResult j r) → s.OneCall act :=
    fun hget hsubmit => ⟨fun j h => absurd h (hget j), fun j r h => absurd h (hsubmit j r)⟩
  cases act with
  | solve =>
      exact (and_iff_right (hother (fun _ => Action.noConfusion) fun _ _ => Action.noConfusion)).symm
  | handler i ch =>
      exact (and_iff_right (hother (fun _ => Action.noConfusion) fun _ _ => Action.noConfusion)).symm
  | getTask j =>
      have hcall : s.OneCall (.getTask j) ↔ s.idle j = true :=
        ⟨fun h => h.1 j rfl,
          fun h => ⟨fun k hk => Action.getTask.inj hk ▸ h, fun _ _ => Action.noConfusion⟩⟩
      rw [hcall, step, stepFreely]
      cases hw : s.workers[j]? with
      | none => simp
      | some w => by_cases hidle : s.idle j = true <;> simp [hidle]
  | submitResult j r =>
      have hcall : s.OneCall (.submitResult j r) ↔ s.idle j = true ∧
          (∀ w, s.workers[j]? = some w → r.workerId = w.workerId) ∧ r.taskId ∈ s.givenTo j := by
        refine ⟨fun h => h.2 j r rfl, fun h => ⟨fun _ => Action.noConfusion, fun k r' hk => ?_⟩⟩
        obtain ⟨rfl, rfl⟩ := Action.submitResult.inj hk
        exact h
      rw [hcall, step, stepFreely]
      cases hw : s.workers[j]? with
      | none => simp
      | some w =>
          by_cases hall : s.idle j = true ∧ r.workerId = w.workerId ∧ r.taskId ∈ s.givenTo j
          · simp [hall]
          · simp only [hall, if_false, reduceCtorEq, Option.some.injEq, forall_eq', Option.map_some,
              false_and]

theorem reaches_freely_iff {s₀ : Clients} :
    Reaches stepFreely (fun s act => s.OneCall act ∧ guard s act) s₀ s ↔ Reaches step guard s₀ s :=
  ⟨fun hr => hr.of_step fun _ _ _ hg hs => ⟨hg.2, step_iff.mpr ⟨hg.1, hs⟩⟩,
    fun hr => hr.of_step fun _ _ _ hg hs => ⟨⟨(step_iff.mp hs).1, hg⟩, (step_iff.mp hs).2⟩⟩

/-- **The cap holds** in runs in which every worker makes one call at a time and the check leaves room
for the calls that have passed it. -/
theorem cap_holds (hid : Distinguished workers) (hpos : 0 < cfg.maxWorkers)
    (hr : Reaches stepFreely (fun s act => s.OneCall act ∧ s.Asks act ∧ s.Room act)
      (.init workers (.init cfg wt cnf cubes)) s) : (s.holders : ℤ) ≤ cfg.maxWorkers :=
  holders_le hid hpos (reaches_freely_iff.mp hr)

end Runs

/-- `Asks` and `Room`, evaluated. -/
def roomCheck (s : Clients) (act : Action) : Bool :=
  s.asksCheck act && match act with
    | .handler i _ =>
        match (s.calls[i]?).map Call.handler with
        | some (.getTask (.checkCap _)) =>
            s.server.capReached || decide ((busyCount s.server.workerTracker +
              s.calls.countP (fun c => inFlight c.handler) : ℤ) < s.server.cfg.maxWorkers)
        | _ => true
    | _ => true

theorem room_of_check {s : Clients} {act : Action} (h : s.roomCheck act = true) :
    s.Asks act ∧ s.Room act := by
  unfold roomCheck at h
  obtain ⟨hasks, hroom⟩ := (Bool.and_eq_true _ _).mp h
  refine ⟨asks_of_check hasks, ?_⟩
  rintro i ch c w rfl hget hcheck hcap
  simp only [hget, Option.map_some, hcheck, hcap, Bool.false_or, decide_eq_true_eq] at hroom
  exact hroom

/-- The start of a problem with a cap. -/
def cappedInit (maxWorkers : ℤ) : Clients :=
  .init [workerA, workerB]
    (.init { defaultConfig with maxWorkers := maxWorkers } .new sevenVars [[1], [-1]])

theorem cap_holds_oneEach : ∃ s : Clients, s.holders = 2 ∧ (s.holders : ℤ) ≤ 2 := by
  have hrun : (exec (fun s a => if roomCheck s a then step s a else none) (cappedInit 2)
      [List.replicate 11 .solve, [.getTask 0, .getTask 1], List.replicate 6 (.handler 0 .go),
        List.replicate 6 (.handler 1 .go)].flatten).map holders = some 2 := by
    decide +kernel
  obtain ⟨s, hs, hholders⟩ := Option.map_eq_some_iff.mp hrun
  have hr := Reaches.of_exec_checked (fun _ _ => room_of_check) hs
  have hid : Distinguished [workerA, workerB] := ⟨by decide, by decide⟩
  exact ⟨s, hholders, cap_holds hid (by decide) (reaches_freely_iff.mpr hr)⟩

/-- Both handlers pass the check before either has a task. -/
def together : List Action :=
  [List.replicate 11 .solve, [.getTask 0, .getTask 1], List.replicate 2 (.handler 0 .go),
    List.replicate 2 (.handler 1 .go), List.replicate 4 (.handler 0 .go),
    List.replicate 4 (.handler 1 .go)].flatten

/-- **The cap is exceeded** by two handlers that pass the check together. -/
theorem cap_exceeded : ∃ s, Reaches stepFreely (fun s act => s.OneCall act ∧ s.Asks act) (cappedInit 1) s ∧
    s.server.cfg.maxWorkers = 1 ∧ s.holders = 2 := by
  have hrun : (exec (fun s a => if asksCheck s a then step s a else none) (cappedInit 1) together).map
      (fun s => (s.server.cfg.maxWorkers, s.holders)) = some (1, 2) := by
    decide +kernel
  obtain ⟨s, hs, hpair⟩ := Option.map_eq_some_iff.mp hrun
  obtain ⟨hmax, hholders⟩ := Prod.mk.inj hpair
  have hr := Reaches.of_exec_checked (fun _ _ => asks_of_check) hs
  exact ⟨s, reaches_freely_iff.mpr hr, hmax, hholders⟩

end Clients

end HydraSAT.Cluster
