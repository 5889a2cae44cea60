import HydraSAT.Cluster.Clients

/-!
# The bounded queue

A `SubmitResult` handler for a timeout sends two tasks on the queue of 10000 slots, and only workers
take tasks from it.  A worker that waits for such a handler takes none.

* `Fleet.Room`: some slot is free, or some worker is not at a send; this is all that somebody needs to
  move (`Fleet.moves_iff_room`);
* `Fleet.sole`: no two workers wait for the same handler;
* `Fleet.deadlocks`: one worker whose tasks all time out ends in a state where nobody can move.
-/

namespace HydraSAT.Cluster

open HydraSAT.Lib HydraSAT.Master

/-! ### Steps and their enabledness -/

/-- No call fails, no worker exits. -/
def FailureFree : Action → Prop
  | .solve => True
  | .handler _ c => c ≠ .ctxDone
  | .worker _ e => e ≠ .rpcError ∧ e ≠ .giveUp

/-- A worker or a handler can move. -/
def Fleet.Moves (s : Fleet) : Prop := ∃ act s', act ≠ .solve ∧ FailureFree act ∧ s.step act = some s'

/-- **No deadlock**: as long as tasks are outstanding, a worker or a handler can move. -/
def Fleet.GoesOn (s : Fleet) : Prop := s.system.server.taskManager.outstanding ≠ [] → s.Moves

/-- The handler is about to send a payload on the queue. -/
def sending : Handler → Bool
  | .submitResult (.enqueue _ _ _ (.send _ _)) => true
  | _ => false

/-- The worker waits for a handler that is about to send. -/
def Worker.sends (handlers : List Handler) : Worker → Bool
  | .awaiting i => (handlers[i]?.map sending).getD false
  | _ => false

/-- Slots of the queue in use. -/
def Fleet.queued (s : Fleet) : ℕ := s.system.server.taskManager.taskQueue.length

/-- Some slot is free, or some worker is not at a send. -/
def Fleet.Room (s : Fleet) : Prop :=
  s.queued < queueCapacity ∨ ∃ w ∈ s.workers, w.2.sends s.system.handlers = false

/-- The worker has not exited, and the handler it waits for serves the call it made. -/
def Worker.Attends (handlers : List Handler) : Worker → Prop
  | .waiting i => ∃ g, handlers[i]? = some (.getTask g)
  | .awaiting i => ∃ g, handlers[i]? = some (.submitResult g)
  | .exited => False
  | _ => True

/-- The mutex is held by a handler that is about to release it. -/
def System.Held (t : System) : Prop :=
  t.server.taskManager.mu = true →
    ∃ r hostname cube, Handler.submitResult (.release r hostname cube) ∈ t.handlers

/-! ### Somebody can move -/

/-- A `GetTask` handler waits for the mutex only. -/
theorem GetTask.can_move {m : MasterServer} (hmu : m.taskManager.mu = false) {g : GetTask}
    (hg : returned (.getTask g) = false) : ∃ c, c ≠ .ctxDone ∧ (GetTask.step m g c).isSome = true := by
  cases g with
  | select w => exact ⟨.after5s, by decide, rfl⟩
  | record w task => exact ⟨.go, by decide, by simp [GetTask.step, hmu]⟩
  | returned reply => exact absurd hg (by simp [returned])
  | _ => exact ⟨.go, by decide, rfl⟩

/-- A `SubmitResult` handler waits for the mutex and for a slot of the queue only. -/
theorem SubmitResult.can_move {m : MasterServer} (hmu : m.taskManager.mu = false) {g : SubmitResult}
    (hg : returned (.submitResult g) = false)
    (hroom : m.taskManager.taskQueue.length < queueCapacity ∨ sending (.submitResult g) = false) :
    ∃ c, c ≠ .ctxDone ∧ (SubmitResult.step m g c).isSome = true := by
  cases g with
  | remove r =>
      refine ⟨.go, by decide, ?_⟩
      rw [SubmitResult.step, if_neg (by simp [hmu])]
      cases m.taskManager.checkbook.lookup r.taskId <;> rfl
  | split r cube =>
      have horder : MapOrder m.taskManager.cnfData.clauses (freqTable m.taskManager.cnfData.clauses) :=
        List.Perm.refl _
      exact ⟨.visit (freqTable m.taskManager.cnfData.clauses), by simp, by
        simp [SubmitResult.step, horder]⟩
  | enqueue r cube newCubes e =>
      refine ⟨.go, by decide, ?_⟩
      cases e with
      | loop rest => cases rest <;> rfl
      | insert id c rest => simp [SubmitResult.step, enqueueStep, hmu]
      | activate id c rest => rfl
      | send task rest =>
          have hlt := hroom.resolve_right (by simp [sending])
          simp [SubmitResult.step, enqueueStep, hlt]
  | returned ok => exact absurd hg (by simp [returned])
  | _ => exact ⟨.go, by decide, rfl⟩

/-- A handler that can move. -/
theorem Fleet.moves_handler {s : Fleet} {i : ℕ} {h : Handler} (hi : s.system.handlers[i]? = some h)
    (hh : ∃ c, c ≠ .ctxDone ∧ (Handler.step s.system.server h c).isSome = true) : s.Moves := by
  obtain ⟨c, hc, hstep⟩ := hh
  obtain ⟨p, hp⟩ := Option.isSome_iff_exists.mp hstep
  have hmove := stepThread_enabled hi hp
  exact ⟨.handler i c, _, by simp, hc, by rw [Fleet.step, System.step, hmove]; rfl⟩

/-- A worker that can move. -/
theorem Fleet.moves_worker {s : Fleet} {w : WorkerIdentity × Worker} (hw : w ∈ s.workers) {e : Event}
    (he : e ≠ .rpcError ∧ e ≠ .giveUp) (hstep : (Worker.step w.1 s.system w.2 e).isSome = true) :
    s.Moves := by
  obtain ⟨j, hj⟩ := List.getElem?_of_mem hw
  obtain ⟨p, hp⟩ := Option.isSome_iff_exists.mp hstep
  have hfleet : Fleet.stepWorker s.system w e = some (p.1, w.1, p.2) := by
    rw [Fleet.stepWorker, hp]
    rfl
  have hmove := stepThread_enabled hj hfleet
  exact ⟨.worker j e, _, by simp, he, by rw [Fleet.step, hmove]; rfl⟩

/-- **Somebody can move**, unless the queue is full and every worker at a send. -/
theorem Fleet.moves_of_room {s : Fleet} (hheld : System.Held s.system)
    (hattends : ∀ w ∈ s.workers, w.2.Attends s.system.handlers) (hne : s.workers ≠ []) (hroom : s.Room) :
    s.Moves := by
  cases hmu : s.system.server.taskManager.mu with
  | true =>
      obtain ⟨r, hostname, cube, hmem⟩ := hheld hmu
      obtain ⟨i, hi⟩ := List.getElem?_of_mem hmem
      exact Fleet.moves_handler hi ⟨.go, by decide, rfl⟩
  | false =>
      obtain ⟨w, hw, hfree⟩ : ∃ w ∈ s.workers,
          s.queued < queueCapacity ∨ w.2.sends s.system.handlers = false := by
        rcases hroom with hlt | ⟨w, hw, hsends⟩
        · obtain ⟨w, ws, hws⟩ := List.exists_cons_of_ne_nil hne
          exact ⟨w, hws ▸ List.mem_cons_self, .inl hlt⟩
        · exact ⟨w, hw, .inr hsends⟩
      have hgo : Event.go ≠ .rpcError ∧ Event.go ≠ .giveUp := ⟨by simp, by simp⟩
      have hself := hattends w hw
      obtain ⟨ident, w⟩ := w
      cases w with
      | polling => exact Fleet.moves_worker hw hgo rfl
      | sleeping => exact Fleet.moves_worker hw hgo rfl
      | solving task => exact Fleet.moves_worker (e := .answer "0" 0 true) hw ⟨by simp, by simp⟩ rfl
      | submitting r => exact Fleet.moves_worker hw hgo rfl
      | exited => exact hself.elim
      | waiting i =>
          obtain ⟨g, hg⟩ := hself
          cases hret : returned (.getTask g) with
          | false =>
              obtain ⟨c, hc, hstep⟩ := GetTask.can_move hmu hret
              exact Fleet.moves_handler hg ⟨c, hc, by simpa [Handler.step] using hstep⟩
          | true =>
              obtain ⟨reply, rfl⟩ : ∃ reply, g = .returned reply := by
                cases g with
                | returned reply => exact ⟨reply, rfl⟩
                | _ => exact absurd hret Bool.false_ne_true
              refine Fleet.moves_worker hw hgo ?_
              cases reply <;> simp [Worker.step, hg]
      | awaiting i =>
          obtain ⟨g, hg⟩ := hself
          cases hret : returned (.submitResult g) with
          | false =>
              have hfree' : s.queued < queueCapacity ∨ sending (.submitResult g) = false := by
                refine hfree.imp id fun hsends => ?_
                simpa [Worker.sends, hg] using hsends
              obtain ⟨c, hc, hstep⟩ := SubmitResult.can_move hmu hret hfree'
              exact Fleet.moves_handler hg ⟨c, hc, by simpa [Handler.step] using hstep⟩
          | true =>
              obtain ⟨ok, rfl⟩ : ∃ ok, g = .returned ok := by
                cases g with
                | returned ok => exact ⟨ok, rfl⟩
                | _ => exact absurd hret Bool.false_ne_true
              refine Fleet.moves_worker hw hgo ?_
              cases ok <;> simp [Worker.step, hg]

/-! ### The mutex and the length of the queue -/

variable {cfg : HeuristicConfig} {wt : WorkerTracker} {cnf : CNFData} {cubes : List Cube}

theorem TaskManager.mu_recordAssignment (tm : TaskManager) (id : ℤ) (hostname : String) :
    (tm.recordAssignment id hostname).mu = tm.mu := by
  unfold TaskManager.recordAssignment
  split <;> rfl

theorem enqueueStep_mu {tm tm' : TaskManager} {e e' : EnqueueCubes}
    (h : enqueueStep tm e = some (tm', e')) : tm'.mu = tm.mu := by
  rcases enqueueStep_cases h with ⟨cube, rest, -, rfl, -⟩ | ⟨id, cube, rest, -, -, rfl, -⟩ |
    ⟨id, cube, rest, -, rfl, -⟩ | ⟨task, rest, -, -, rfl, -⟩
  all_goals rfl

/-- Only the accepting step takes the mutex and keeps it. -/
theorem HandlerMove.mu {m m' : MasterServer} {h h' : Handler} (hm : HandlerMove m h m' h')
    (hmu : m'.taskManager.mu = true) :
    (∃ r hostname cube, h' = .submitResult (.release r hostname cube)) ∨
      m.taskManager.mu = true ∧ ∀ r hostname cube, h ≠ .submitResult (.release r hostname cube) := by
  cases hm with
  | getTask hg =>
      refine .inr ⟨?_, fun _ _ _ heq => nomatch heq⟩
      cases hg with
      | record w task hfree =>
          exact (TaskManager.mu_recordAssignment _ _ _).symm.trans hmu
      | _ => exact hmu
  | submitResult hm =>
      cases hm with
      | accept r entry hfree hl => exact .inl ⟨r, entry.hostname, entry.cube, rfl⟩
      | release r hostname cube => exact Bool.noConfusion hmu
      | enqueue r cube newCubes e tm' e' he =>
          exact .inr ⟨(enqueueStep_mu he).symm.trans hmu, fun _ _ _ heq => nomatch heq⟩
      | _ => exact .inr ⟨hmu, fun _ _ _ heq => nomatch heq⟩

theorem System.held {t : System} (hr : Reachable System.step (.init cfg wt cnf cubes) t) :
    System.Held t := by
  refine hr.invariant System.Held (fun hmu => Bool.noConfusion hmu) ?_
  intro t act t' hheld _ hs hmu
  cases System.move_of_step hs with
  | solve hp =>
      refine hheld ?_
      generalize t.solve = q at hp
      cases hp with
      | load e tm' e' he => exact (enqueueStep_mu he).symm.trans hmu
      | _ => exact hmu
  | getTask w =>
      obtain ⟨r, hostname, cube, hmem⟩ := hheld hmu
      exact ⟨r, hostname, cube, List.mem_append_left _ hmem⟩
  | submitResult r' =>
      obtain ⟨r, hostname, cube, hmem⟩ := hheld hmu
      exact ⟨r, hostname, cube, List.mem_append_left _ hmem⟩
  | @handler pre h post server h' c heq hm =>
      rcases HandlerMove.mu hm hmu with ⟨r, hostname, cube, rfl⟩ | ⟨hmu, hne⟩
      · exact ⟨r, hostname, cube, List.mem_append_right _ List.mem_cons_self⟩
      · obtain ⟨r, hostname, cube, hmem⟩ := hheld hmu
        rw [heq] at hmem
        exact ⟨r, hostname, cube, mem_exchange hmem (Ne.symm (hne r hostname cube))⟩

/-- A task is sent only on a free slot. -/
theorem enqueueStep_queue_le {tm tm' : TaskManager} {e e' : EnqueueCubes}
    (h : enqueueStep tm e = some (tm', e')) (hle : tm.taskQueue.length ≤ queueCapacity) :
    tm'.taskQueue.length ≤ queueCapacity := by
  rcases enqueueStep_cases h with ⟨cube, rest, -, rfl, -⟩ | ⟨id, cube, rest, -, -, rfl, -⟩ |
    ⟨id, cube, rest, -, rfl, -⟩ | ⟨task, rest, -, hlt, rfl, -⟩
  · exact hle
  · exact hle
  · exact hle
  · show (tm.taskQueue ++ [task]).length ≤ queueCapacity
    rw [List.length_append, List.length_singleton]
    exact hlt

theorem HandlerMove.queue_le {m m' : MasterServer} {h h' : Handler} (hm : HandlerMove m h m' h')
    (hle : m.taskManager.taskQueue.length ≤ queueCapacity) :
    m'.taskManager.taskQueue.length ≤ queueCapacity := by
  cases hm with
  | getTask hg =>
      cases hg with
      | dequeue w task rest hq =>
          rw [hq, List.length_cons] at hle
          exact Nat.le_of_succ_le hle
      | record w task hfree =>
          show (m.taskManager.recordAssignment task.taskId w.hostname).taskQueue.length ≤ _
          rwa [TaskManager.taskQueue_recordAssignment]
      | _ => exact hle
  | submitResult hm =>
      cases hm with
      | accept r entry hfree hl =>
          show (m.taskManager.deleteTask r.taskId).taskQueue.length ≤ _
          rwa [TaskManager.taskQueue_deleteTask]
      | enqueue r cube newCubes e tm' e' he => exact enqueueStep_queue_le he hle
      | _ => exact hle

/-- The queue never outgrows its slots. -/
theorem System.queue_le {t : System} (hr : Reachable System.step (.init cfg wt cnf cubes) t) :
    t.server.taskManager.taskQueue.length ≤ queueCapacity := by
  refine hr.invariant (fun t => t.server.taskManager.taskQueue.length ≤ queueCapacity)
    (Nat.zero_le _) ?_
  intro t act t' hle _ hs
  cases System.move_of_step hs with
  | solve hp =>
      generalize t.solve = q at hp
      cases hp with
      | load e tm' e' he => exact enqueueStep_queue_le he hle
      | _ => exact hle
  | getTask w => exact hle
  | submitResult r => exact hle
  | handler c heq hm => exact HandlerMove.queue_le hm hle

/-! ### Workers and the calls they wait for -/

theorem Worker.Attends.exchange {m m' : MasterServer} {pre post : List Handler} {h h' : Handler}
    (hm : HandlerMove m h m' h') {w : Worker} (hw : w.Attends (pre ++ h :: post)) :
    w.Attends (pre ++ h' :: post) := by
  cases w with
  | waiting i =>
      obtain ⟨g, hg⟩ := hw
      by_cases hi : i = pre.length
      · subst hi
        obtain rfl : h = .getTask g := by simpa using hg
        cases hm with
        | @getTask _ _ g' _ => exact ⟨g', by simp⟩
      · exact ⟨g, (getElem?_exchange hi).trans hg⟩
  | awaiting i =>
      obtain ⟨g, hg⟩ := hw
      by_cases hi : i = pre.length
      · subst hi
        obtain rfl : h = .submitResult g := by simpa using hg
        cases hm with
        | @submitResult _ _ g' _ => exact ⟨g', by simp⟩
      · exact ⟨g, (getElem?_exchange hi).trans hg⟩
  | _ => exact hw

theorem Worker.Attends.arrive {handlers : List Handler} {h : Handler} {w : Worker}
    (hw : w.Attends handlers) : w.Attends (handlers ++ [h]) := by
  have hold : ∀ {i x}, handlers[i]? = some x → (handlers ++ [h])[i]? = some x := fun hi => by
    rw [List.getElem?_append_left (List.getElem?_eq_some_iff.mp hi).1, hi]
  cases w with
  | waiting i => exact hw.imp fun _ hg => hold hg
  | awaiting i => exact hw.imp fun _ hg => hold hg
  | _ => exact hw

/-- A worker that moves and does not exit attends to its new call, and the others attend to theirs. -/
theorem WorkerMove.attends {ident : WorkerIdentity} {s t : System} {w w' : Worker} {e : Event}
    (hm : WorkerMove ident s w e t w') (he : e ≠ .giveUp) :
    w'.Attends t.handlers ∧ ∀ u : Worker, u.Attends s.handlers → u.Attends t.handlers := by
  cases hm with
  | call => exact ⟨⟨.register ident, by simp⟩, fun _ hu => hu.arrive⟩
  | submit r => exact ⟨⟨.remove r, by simp⟩, fun _ hu => hu.arrive⟩
  | exit => exact absurd rfl he
  | _ => exact ⟨trivial, fun _ hu => hu⟩

/-! ### Nobody exits -/

variable {idents : List WorkerIdentity} {guard : Fleet → Action → Prop} {s : Fleet}

/-- Nobody exits. -/
def Stays (act : Action) : Prop := ∀ j, act ≠ .worker j .giveUp

theorem Fleet.attends (hstays : ∀ s act, guard s act → Stays act)
    (hr : Reaches Fleet.step guard (Fleet.init (.init cfg wt cnf cubes) idents) s) :
    ∀ w ∈ s.workers, w.2.Attends s.system.handlers := by
  refine hr.invariant (fun s => ∀ w ∈ s.workers, w.2.Attends s.system.handlers) ?_ ?_
  · intro w hw
    obtain ⟨ident, -, rfl⟩ := List.mem_map.mp hw
    trivial
  intro s act s' hall hg hs
  cases Fleet.step_cases hs with
  | @solve t ht =>
      obtain ⟨p, -, rfl⟩ := Option.map_eq_some_iff.mp ht
      exact hall
  | handler c heq hm =>
      intro w hw
      exact Worker.Attends.exchange hm (heq ▸ hall w hw)
  | @worker pre ident w post e t w' heq hm =>
      have he : e ≠ .giveUp := fun heq => hstays s _ hg pre.length (by rw [heq])
      obtain ⟨hself, hothers⟩ := WorkerMove.attends hm he
      rw [heq] at hall
      have hmoved : Worker.Attends t.handlers (ident, w').2 := hself
      exact forall_exchange (fun u hu => hothers u.2 (hall u hu)) hmoved

/-- The number of workers stays. -/
theorem Fleet.workers_length
    (hr : Reaches Fleet.step guard (Fleet.init (.init cfg wt cnf cubes) idents) s) :
    s.workers.length = idents.length := by
  refine hr.invariant (fun s => s.workers.length = idents.length) (List.length_map _) ?_
  intro s act s' hlength _ hs
  cases Fleet.step_cases hs with
  | solve _ => exact hlength
  | handler c _ _ => exact hlength
  | worker heq hm =>
      rw [heq] at hlength
      simpa using hlength

theorem Fleet.workers_ne_nil (hne : idents ≠ [])
    (hr : Reaches Fleet.step guard (Fleet.init (.init cfg wt cnf cubes) idents) s) : s.workers ≠ [] := by
  refine List.ne_nil_of_length_pos ?_
  rw [Fleet.workers_length hr]
  exact List.length_pos_of_ne_nil hne

/-! ### One worker for each running call -/

/-- The call that a worker waits for. -/
def Worker.call : Worker → Option ℕ
  | .waiting i => some i
  | .awaiting i => some i
  | _ => none

/-- No two workers wait for the same call. -/
def Fleet.Sole (s : Fleet) : Prop := (s.workers.filterMap fun w => w.2.call).Nodup

/-- The other workers wait for other calls. -/
theorem Fleet.Sole.others {s : Fleet} (h : s.Sole) {pre post : List (WorkerIdentity × Worker)}
    {u : WorkerIdentity × Worker} (heq : s.workers = pre ++ u :: post) {i : ℕ}
    (hu : u.2.call = some i) {v : WorkerIdentity × Worker} (hv : v ∈ pre ∨ v ∈ post) :
    v.2.call ≠ some i := by
  intro hcall
  rw [Fleet.Sole, heq, List.filterMap_append, List.filterMap_cons, hu] at h
  obtain ⟨-, htail, hdisjoint⟩ := List.nodup_append.mp h
  rcases hv with hv | hv
  · exact hdisjoint i (List.mem_filterMap.mpr ⟨v, hv, hcall⟩) i List.mem_cons_self rfl
  · exact (List.nodup_cons.mp htail).1 (List.mem_filterMap.mpr ⟨v, hv, hcall⟩)

theorem Worker.Attends.call_lt {handlers : List Handler} {w : Worker} (h : w.Attends handlers) {i : ℕ}
    (hi : w.call = some i) : i < handlers.length := by
  cases w with
  | waiting j =>
      obtain rfl : j = i := Option.some.inj hi
      exact h.elim fun _ hg => (List.getElem?_eq_some_iff.mp hg).1
  | awaiting j =>
      obtain rfl : j = i := Option.some.inj hi
      exact h.elim fun _ hg => (List.getElem?_eq_some_iff.mp hg).1
  | _ => cases hi

/-- A worker that moves waits for nobody's call but its own new one. -/
theorem WorkerMove.call_cases {ident : WorkerIdentity} {s t : System} {w w' : Worker} {e : Event}
    (hm : WorkerMove ident s w e t w') : w'.call = none ∨ w'.call = some s.handlers.length := by
  cases hm with
  | call => exact .inr rfl
  | submit r => exact .inr rfl
  | _ => exact .inl rfl

theorem Fleet.sole (hstays : ∀ s act, guard s act → Stays act)
    (hr : Reaches Fleet.step guard (Fleet.init (.init cfg wt cnf cubes) idents) s) : s.Sole := by
  refine hr.invariant' Fleet.Sole ?_ ?_
  · have hnone : (Fleet.init (.init cfg wt cnf cubes) idents).workers.filterMap
        (fun w => w.2.call) = [] := by
      refine List.filterMap_eq_nil_iff.mpr fun w hw => ?_
      obtain ⟨ident, -, rfl⟩ := List.mem_map.mp hw
      rfl
    rw [Fleet.Sole, hnone]
    exact List.nodup_nil
  intro s act s' hr hsole _ hs
  have hattends := Fleet.attends hstays hr
  cases Fleet.step_cases hs with
  | solve ht => exact hsole
  | handler c heq hm => exact hsole
  | @worker pre ident w post e t w' heq hm =>
      rw [Fleet.Sole, heq, List.filterMap_append, List.filterMap_cons] at hsole
      have hothers : (pre.filterMap (fun w => w.2.call) ++ post.filterMap fun w => w.2.call).Nodup := by
        cases hcall : w.call with
        | none => rwa [hcall] at hsole
        | some i =>
            rw [hcall] at hsole
            exact hsole.sublist (List.Sublist.append_left (List.sublist_cons_self _ _) _)
      have hfresh : s.system.handlers.length ∉
          pre.filterMap (fun w => w.2.call) ++ post.filterMap fun w => w.2.call := by
        intro hmem
        rw [← List.filterMap_append] at hmem
        obtain ⟨v, hv, hcall⟩ := List.mem_filterMap.mp hmem
        have hin : v ∈ s.workers := by
          rw [heq]
          rcases List.mem_append.mp hv with hv | hv
          · exact List.mem_append_left _ hv
          · exact List.mem_append_right _ (List.mem_cons_of_mem _ hv)
        exact absurd ((hattends v hin).call_lt hcall) (lt_irrefl _)
      show (List.filterMap (fun w => w.2.call) (pre ++ (ident, w') :: post)).Nodup
      rw [List.filterMap_append, List.filterMap_cons]
      rcases hm.call_cases with hcall | hcall
      · rw [hcall]
        exact hothers
      · rw [hcall]
        exact List.nodup_middle.mpr (List.nodup_cons.mpr ⟨hfresh, hothers⟩)

/-! ### Nobody can move -/

/-- Every handler that has not returned has a worker that waits for it. -/
def Fleet.Served (s : Fleet) : Prop :=
  ∀ i h, s.system.handlers[i]? = some h → returned h = false →
    ∃ w ∈ s.workers, w.2 = .waiting i ∨ w.2 = .awaiting i

/-- A worker that moves, no call failing, leaves no running handler behind, and attends to the one
that it starts. -/
theorem WorkerMove.served {ident : WorkerIdentity} {s t : System} {w w' : Worker} {e : Event}
    (hm : WorkerMove ident s w e t w') (he : e ≠ .rpcError ∧ e ≠ .giveUp) {i : ℕ} {h : Handler}
    (hi : t.handlers[i]? = some h) (hrunning : returned h = false) :
    (w' = .waiting i ∨ w' = .awaiting i) ∨
      s.handlers[i]? = some h ∧ w ≠ .waiting i ∧ w ≠ .awaiting i := by
  have harrives : ∀ {x : Handler}, (s.handlers ++ [x])[i]? = some h →
      i = s.handlers.length ∨ s.handlers[i]? = some h := by
    intro x hx
    rcases Nat.lt_or_ge i s.handlers.length with hlt | hge
    · rw [List.getElem?_append_left hlt] at hx
      exact .inr hx
    · have hlt := (List.getElem?_eq_some_iff.mp hx).1
      rw [List.length_append, List.length_singleton] at hlt
      exact .inl (by omega)
  have hdone : ∀ {x : Handler} {j : ℕ}, s.handlers[j]? = some x → returned x = true →
      s.handlers[i]? = some h → j ≠ i := by
    rintro x j hx hret hi rfl
    rw [hi] at hx
    obtain rfl := Option.some.inj hx
    rw [hrunning] at hret
    exact Bool.noConfusion hret
  cases hm with
  | call =>
      refine (harrives hi).imp (fun heq => .inl (congrArg Worker.waiting heq.symm)) fun hold => ?_
      exact ⟨hold, by simp, by simp⟩
  | submit r =>
      refine (harrives hi).imp (fun heq => .inr (congrArg Worker.awaiting heq.symm)) fun hold => ?_
      exact ⟨hold, by simp, by simp⟩
  | receive j task hj _ => exact .inr ⟨hi, by simpa using hdone hj rfl hi, by simp⟩
  | noWork j task hj _ => exact .inr ⟨hi, by simpa using hdone hj rfl hi, by simp⟩
  | cancelled j hj => exact .inr ⟨hi, by simpa using hdone hj rfl hi, by simp⟩
  | done j hj => exact .inr ⟨hi, by simp, by simpa using hdone hj rfl hi⟩
  | refused j hj => exact .inr ⟨hi, by simp, by simpa using hdone hj rfl hi⟩
  | wake => exact .inr ⟨hi, by simp, by simp⟩
  | solve task count durationSec timedOut => exact .inr ⟨hi, by simp, by simp⟩
  | exit => exact absurd rfl he.2
  | _ => exact absurd rfl he.1

theorem Fleet.served
    (hr : Reaches Fleet.step (fun _ act => FailureFree act)
      (Fleet.init (.init cfg wt cnf cubes) idents) s) :
    s.Served := by
  refine hr.invariant Fleet.Served (fun i h hi => ?_) ?_
  · exact absurd hi (by simp [Fleet.init, System.init])
  intro s act s' hserved hfree hs
  cases Fleet.step_cases hs with
  | @solve t ht =>
      obtain ⟨p, -, rfl⟩ := Option.map_eq_some_iff.mp ht
      exact hserved
  | @handler pre h post server h' c heq hm =>
      intro i x hx hrunning
      by_cases hi : i = pre.length
      · exact hserved i h (by simp [heq, hi]) (HandlerMove.not_returned hm)
      · refine hserved i x ?_ hrunning
        rw [heq, ← getElem?_exchange hi]
        exact hx
  | @worker pre ident w post e t w' heq hm =>
      intro i x hx hrunning
      rcases WorkerMove.served hm hfree hx hrunning with hself | ⟨hi, hne, hne'⟩
      · exact ⟨(ident, w'), List.mem_append_right _ List.mem_cons_self, hself⟩
      · obtain ⟨u, hu, hserves⟩ := hserved i x hi hrunning
        rw [heq] at hu
        have hother : u ≠ (ident, w) := by
          rintro rfl
          exact hserves.elim hne hne'
        exact ⟨u, mem_exchange hu hother, hserves⟩

/-- What a worker at a send waits for. -/
theorem Worker.sends_cases {handlers : List Handler} {w : Worker} (h : w.sends handlers = true) :
    ∃ i g, w = .awaiting i ∧ handlers[i]? = some g ∧ sending g = true := by
  cases w with
  | awaiting i =>
      unfold Worker.sends at h
      cases hi : handlers[i]? with
      | none => simp [hi] at h
      | some g => exact ⟨i, g, rfl, hi, by simpa [hi] using h⟩
  | _ => exact Bool.noConfusion h

/-- A handler at its send does not move while the queue is full. -/
theorem HandlerMove.blocked {m m' : MasterServer} {h h' : Handler} (hm : HandlerMove m h m' h')
    (hsend : sending h = true) : m.taskManager.taskQueue.length < queueCapacity := by
  cases hm with
  | getTask hg => exact Bool.noConfusion hsend
  | submitResult hm =>
      cases hm with
      | enqueue r cube newCubes e tm' e' he =>
          cases e with
          | send task rest =>
              by_contra hfull
              rw [enqueueStep, if_neg hfull] at he
              cases he
          | _ => exact Bool.noConfusion hsend
      | _ => exact Bool.noConfusion hsend

/-- **Nobody can move** when the queue is full and every worker at a send. -/
theorem Fleet.Served.stuck (hserved : s.Served) (hfull : s.queued = queueCapacity)
    (hall : ∀ w ∈ s.workers, w.2.sends s.system.handlers = true) : ¬s.Moves := by
  rintro ⟨act, s', hact, hfree, hs⟩
  cases Fleet.step_cases hs with
  | solve _ => exact hact rfl
  | @handler pre h post server h' c heq hm =>
      have hself : s.system.handlers[pre.length]? = some h := by simp [heq]
      obtain ⟨w, hw, hserves⟩ := hserved pre.length h hself (HandlerMove.not_returned hm)
      obtain ⟨i, g, hi, hg, hsend⟩ := Worker.sends_cases (hall w hw)
      rw [hi] at hserves
      obtain rfl : i = pre.length := by simpa using hserves
      obtain rfl := Option.some.inj (hself.symm.trans hg)
      exact absurd hfull (ne_of_lt (HandlerMove.blocked hm hsend))
  | @worker pre ident w post e t w' heq hm =>
      obtain ⟨i, g, hi, hg, hsend⟩ := Worker.sends_cases (hall (ident, w) (by simp [heq]))
      obtain rfl : w = .awaiting i := hi
      cases hm with
      | done _ hret =>
          obtain rfl := Option.some.inj (hg.symm.trans hret)
          exact Bool.noConfusion hsend
      | refused _ hret =>
          obtain rfl := Option.some.inj (hg.symm.trans hret)
          exact Bool.noConfusion hsend
      | ackLost => exact hfree.1 rfl
      | exit => exact hfree.2 rfl

/-- **Who can move**: as long as no call fails, somebody can exactly if some slot is free or some worker
is not at a send. -/
theorem Fleet.moves_iff_room (hne : idents ≠ [])
    (hr : Reaches Fleet.step (fun _ act => FailureFree act)
      (Fleet.init (.init cfg wt cnf cubes) idents) s) :
    s.Moves ↔ s.Room := by
  constructor
  · intro hmoves
    by_contra hnone
    obtain ⟨hfull, hall⟩ := not_or.mp hnone
    refine (Fleet.served hr).stuck ?_ (fun w hw => ?_) hmoves
    · exact le_antisymm (System.queue_le (Fleet.system_reachable hr)) (not_lt.mp hfull)
    · by_contra hfree
      exact hall ⟨w, hw, by simpa using hfree⟩
  · refine Fleet.moves_of_room (System.held (Fleet.system_reachable hr)) ?_ (Fleet.workers_ne_nil hne hr)
    exact Fleet.attends (fun _ _ hfree j heq => by rw [heq] at hfree; exact hfree.2 rfl) hr

/-! ### One worker and a timeout for every task -/

/-- One step of a handler on its own. -/
def runAlone (p : MasterServer × Handler) (c : Choice) : Option (MasterServer × Handler) :=
  Handler.step p.1 p.2 c

/-- The last handler runs while everybody else stands still. -/
theorem Fleet.reaches_alone {hs : List Handler} {h h' : Handler} {m : MasterServer} {cs : List Choice}
    (heq : s.system.handlers = hs ++ [h]) (hcs : ∀ c ∈ cs, c ≠ .ctxDone)
    (hrun : exec runAlone (s.system.server, h) cs = some (m, h')) :
    Reaches Fleet.step (fun _ act => FailureFree act) s
      { s with system := { s.system with server := m, handlers := hs ++ [h'] } } := by
  induction cs generalizing s h with
  | nil =>
      obtain ⟨rfl, rfl⟩ := Prod.mk.inj (Option.some.inj hrun)
      rw [← heq]
      exact .start
  | cons c cs ih =>
      obtain ⟨⟨m₁, h₁⟩, hone, hrest⟩ := Option.bind_eq_some_iff.mp hrun
      have hget : s.system.handlers[hs.length]? = some h := by simp [heq]
      have hmove := stepThread_enabled hget hone
      have hset : s.system.handlers.set hs.length h₁ = hs ++ [h₁] := by simp [heq]
      rw [hset] at hmove
      have hstep : s.step (.handler hs.length c) =
          some { s with system := { s.system with server := m₁, handlers := hs ++ [h₁] } } := by
        rw [Fleet.step, System.step, hmove]
        rfl
      have hlater := ih (s := { s with system := { s.system with server := m₁, handlers := hs ++ [h₁] } })
        rfl (fun c hc => hcs c (List.mem_cons_of_mem _ hc)) hrest
      have hfree : FailureFree (.handler hs.length c) := hcs c List.mem_cons_self
      exact Reaches.trans (.next .start hfree hstep) hlater

/-- Every task on the queue is outstanding. -/
def Known (tm : TaskManager) : Prop := ∀ task ∈ tm.taskQueue, task.taskId ∈ tm.checkbook

/-- A `GetTask` call takes the head of the queue. -/
theorem GetTask.fetches {m : MasterServer} {w : WorkerIdentity} {task : TaskPayload}
    {rest : List TaskPayload} (hcap : m.cfg.maxWorkers ≤ 0) (hmu : m.taskManager.mu = false)
    (hqueue : m.taskManager.taskQueue = task :: rest) :
    ∃ m' task', exec runAlone (m, .getTask (.register w)) (List.replicate 6 .go) =
        some (m', .getTask (.returned (some task'))) ∧ task'.taskId = task.taskId ∧
      m'.cfg = m.cfg ∧ m'.taskManager =
        { m.taskManager with taskQueue := rest }.recordAssignment task.taskId w.hostname := by
  let m₁ : MasterServer :=
    { m with workerTracker := m.workerTracker.registerWorker w.workerId w.hostname }
  let m₂ : MasterServer := { m₁.dequeue task rest with
    taskManager := (m₁.dequeue task rest).taskManager.recordAssignment task.taskId w.hostname }
  let task' : TaskPayload := { task with timeoutSec := m.timeoutTracker.currentTimeoutSec m.cfg }
  have huncapped : m₁.capReached = false := by
    simp [MasterServer.capReached, m₁, not_lt.mpr hcap]
  refine ⟨{ m₂ with workerTracker :=
    m₂.workerTracker.assignTask w.workerId w.hostname task.taskId task.literals task'.timeoutSec },
    task', ?_, rfl, rfl, rfl⟩
  have hstart : exec runAlone (m, .getTask (.register w)) [.go, .go] =
      some (m₁, .getTask (.select w)) := by
    simp [exec, runAlone, Handler.step, GetTask.step, huncapped, m₁]
  have hdequeue : exec runAlone (m₁, .getTask (.select w)) [.go, .go] =
      some (m₁.dequeue task rest, .getTask (.record w task')) := by
    simp [exec, runAlone, Handler.step, GetTask.step, hqueue, MasterServer.dequeue, m₁, task']
  have hfree : (m₁.dequeue task rest).taskManager.mu = false := hmu
  refine exec_trans hstart (exec_trans hdequeue ?_)
  simp [exec, runAlone, Handler.step, GetTask.step, hfree, m₂, task']

/-- A `SubmitResult` call for a timed-out task starts to enqueue two cubes. -/
theorem SubmitResult.splits {m : MasterServer} {r : TaskResult} {entry : TaskEntry}
    (hmu : m.taskManager.mu = false) (hl : m.taskManager.checkbook.lookup r.taskId = some entry)
    (hto : r.timedOut = true) :
    ∃ m' c₁ c₂, exec runAlone (m, .submitResult (.remove r))
        [.go, .go, .go, .go, .visit (freqTable m.taskManager.cnfData.clauses)] =
        some (m', .submitResult (.enqueue r entry.cube [c₁, c₂] (.loop [c₁, c₂]))) ∧
      m'.cfg = m.cfg ∧ m'.taskManager = (m.taskManager.deleteTask r.taskId).releaseTask := by
  let m₁ := (m.accept r)
  let m₂ : MasterServer := { m₁ with taskManager := m₁.taskManager.releaseTask }
  let m₃ := m₂.updateWorker r entry.hostname
  let m₄ : MasterServer := { m₃ with timedOutTasks := int32 (m₃.timedOutTasks + 1) }
  let freq := freqTable m.taskManager.cnfData.clauses
  have hcnf : m₄.taskManager.cnfData = m.taskManager.cnfData := by
    show (m.taskManager.deleteTask r.taskId).cnfData = _
    rw [TaskManager.deleteTask, hl]
  have horder : MapOrder m₄.taskManager.cnfData.clauses freq := by
    rw [hcnf]
    exact List.Perm.refl _
  refine ⟨{ m₄ with totalTasks := int32 (m₄.totalTasks + (splitCubeSmart entry.cube freq).length) },
    entry.cube ++ [branchVar entry.cube freq], entry.cube ++ [int32 (-branchVar entry.cube freq)],
    ?_, rfl, rfl⟩
  have hstart : exec runAlone (m, .submitResult (.remove r)) [.go, .go, .go, .go] =
      some (m₄, .submitResult (.split r entry.cube)) := by
    simp [exec, runAlone, Handler.step, SubmitResult.step, hmu, hl, SubmitResult.settle, hto, m₁, m₂,
      m₃, m₄]
  refine exec_trans hstart (?_ : exec runAlone _ [Choice.visit freq] = _)
  show (runAlone (m₄, .submitResult (.split r entry.cube)) (.visit freq)).bind _ = _
  rw [runAlone, Handler.step, SubmitResult.step, if_pos horder]
  rfl

/-- The task manager when a turn of the enqueuing loop gets to its send. -/
def entered (tm : TaskManager) (c : Cube) : TaskManager :=
  (tm.drawID.enter (tm.nextID + 1) c).addActive 1

theorem Known.entered {tm : TaskManager} (h : Known tm) (c : Cube) : Known (entered tm c) := by
  intro task hmem
  show task.taskId ∈ tm.checkbook.insert (tm.nextID + 1) ⟨c, ""⟩
  exact (AList.mem_insert _).mpr (.inr (h task hmem))

theorem Known.push {tm : TaskManager} (h : Known tm) {task : TaskPayload}
    (hmem : task.taskId ∈ tm.checkbook) : Known (tm.push task) := by
  intro task' hmem'
  rcases List.mem_append.mp hmem' with hold | hnew
  · exact h task' hold
  · rw [List.mem_singleton.mp hnew]
    exact hmem

/-- A turn of the enqueuing loop gets to its send. -/
theorem SubmitResult.draws {m : MasterServer} (r : TaskResult) (cube c : Cube)
    (newCubes rest : List Cube) (hmu : m.taskManager.mu = false) :
    exec runAlone (m, .submitResult (.enqueue r cube newCubes (.loop (c :: rest)))) [.go, .go, .go] =
      some ({ m with taskManager := entered m.taskManager c },
        .submitResult (.enqueue r cube newCubes
          (.send (m.taskManager.payload (m.taskManager.nextID + 1) c) rest))) := by
  simp [exec, runAlone, Handler.step, SubmitResult.step, enqueueStep, entered, TaskManager.drawID,
    TaskManager.enter, TaskManager.addActive, TaskManager.payload, hmu]

/-- With a free slot the turn is completed, and one more task is on the queue. -/
theorem SubmitResult.enqueues {m : MasterServer} (r : TaskResult) (cube c : Cube)
    (newCubes rest : List Cube) (hmu : m.taskManager.mu = false) (hknown : Known m.taskManager)
    (hlt : m.taskManager.taskQueue.length < queueCapacity) :
    ∃ m', exec runAlone (m, .submitResult (.enqueue r cube newCubes (.loop (c :: rest))))
        [.go, .go, .go, .go] = some (m', .submitResult (.enqueue r cube newCubes (.loop rest))) ∧
      m'.cfg = m.cfg ∧ m'.taskManager.mu = false ∧ Known m'.taskManager ∧
      m'.taskManager.taskQueue.length = m.taskManager.taskQueue.length + 1 := by
  let task := m.taskManager.payload (m.taskManager.nextID + 1) c
  refine ⟨{ m with taskManager := (entered m.taskManager c).push task }, ?_, rfl, hmu, ?_,
    List.length_append⟩
  · have hroom : (entered m.taskManager c).taskQueue.length < queueCapacity := hlt
    refine exec_trans (SubmitResult.draws r cube c newCubes rest hmu)
      (?_ : exec runAlone _ [Choice.go] = _)
    simp [exec, runAlone, Handler.step, SubmitResult.step, enqueueStep, hroom, task]
  · exact (hknown.entered c).push ((AList.mem_insert _).mpr (.inl rfl))

/-- With tasks on the queue nothing is announced. -/
theorem SubmitResult.finishes {m : MasterServer} (r : TaskResult) (cube : Cube) (newCubes : List Cube)
    (hne : m.taskManager.taskQueue ≠ []) :
    ∃ cs, (∀ c ∈ cs, c ≠ Choice.ctxDone) ∧
      exec runAlone (m, .submitResult (.enqueue r cube newCubes (.loop []))) cs =
        some (m, .submitResult (.returned true)) := by
  have hqueue : m.taskManager.isEmptyQueue = false := by
    simpa [TaskManager.isEmptyQueue] using hne
  cases hactive : m.taskManager.isEmptyActive with
  | true =>
      exact ⟨[.go, .go, .go], by decide, by
        simp [exec, runAlone, Handler.step, SubmitResult.step, hactive, hqueue]⟩
  | false =>
      exact ⟨[.go, .go], by decide, by
        simp [exec, runAlone, Handler.step, SubmitResult.step, hactive]⟩

/-- The only worker moves. -/
theorem Fleet.reaches_only {ident : WorkerIdentity} {w w' : Worker} (e : Event) {t : System}
    (hw : s.workers = [(ident, w)]) (he : e ≠ .rpcError ∧ e ≠ .giveUp)
    (hstep : Worker.step ident s.system w e = some (t, w')) :
    Reaches Fleet.step (fun _ act => FailureFree act) s { system := t, workers := [(ident, w')] } := by
  have hmove : s.step (.worker 0 e) = some { system := t, workers := [(ident, w')] } := by
    simp [Fleet.step, stepThread, hw, Fleet.stepWorker, hstep]
  have hfree : FailureFree (.worker 0 e) := he
  exact .next .start hfree hmove

/-- Runs of the one worker in which no call fails. -/
abbrev Fleet.Run (s : Fleet) : Prop := Reaches Fleet.step (fun _ act => FailureFree act) oneWorkerInit s

/-- The worker is about to call, with `n` tasks on the queue. -/
structure Fleet.Backlog (n : ℕ) (s : Fleet) : Prop where
  run : s.Run
  polls : s.workers = [(workerA, .polling)]
  uncapped : s.system.server.cfg.maxWorkers ≤ 0
  known : Known s.system.server.taskManager
  length : s.queued = n

/-- The worker waits for a handler that is about to enqueue two cubes, with `n` tasks on the queue. -/
structure Fleet.Splits (n : ℕ) (s : Fleet) : Prop where
  run : s.Run
  awaits : ∃ hs r cube c₁ c₂, s.workers = [(workerA, .awaiting hs.length)] ∧
    s.system.handlers = hs ++ [.submitResult (.enqueue r cube [c₁, c₂] (.loop [c₁, c₂]))]
  free : s.system.server.taskManager.mu = false
  uncapped : s.system.server.cfg.maxWorkers ≤ 0
  known : Known s.system.server.taskManager
  length : s.queued = n

/-- Nobody holds the mutex while the worker polls. -/
theorem Fleet.Backlog.free {n : ℕ} (h : s.Backlog n) : s.system.server.taskManager.mu = false := by
  by_contra hmu
  obtain ⟨r, hostname, cube, hmem⟩ :=
    System.held (Fleet.system_reachable h.run) (Bool.not_eq_false _ ▸ hmu)
  obtain ⟨i, hi⟩ := List.getElem?_of_mem hmem
  obtain ⟨w, hw, hserves⟩ := Fleet.served h.run i _ hi rfl
  rw [h.polls] at hw
  rw [List.mem_singleton.mp hw] at hserves
  simp at hserves

/-- The head of the queue is on it once. -/
theorem Fleet.Run.head_notMem (h : s.Run) {task : TaskPayload} {rest : List TaskPayload}
    (hqueue : s.system.server.taskManager.taskQueue = task :: rest) :
    ∀ task' ∈ rest, task'.taskId ≠ task.taskId := by
  intro task' hmem heq
  have hone := (System.sent_le (Fleet.system_reachable h) task.taskId).trans (TaskManager.born_le _ _)
  have hpos : 0 < (rest.map (·.taskId)).count task.taskId :=
    List.count_pos_iff.mpr (List.mem_map.mpr ⟨task', hmem, heq⟩)
  simp only [System.sent, System.total, MasterServer.sent, hqueue, List.map_cons,
    List.count_cons_self] at hone
  omega

/-- The result of a task that times out. -/
def timeoutOf (task : TaskPayload) : TaskResult :=
  { taskId := task.taskId, workerId := workerA.workerId, count := "0", durationSec := 30
    timedOut := true }

/-- The worker gets the task of a handler that has returned, solves it until the timeout, and submits. -/
theorem Fleet.submits {hs : List Handler} {task : TaskPayload}
    (hworkers : s.workers = [(workerA, .waiting hs.length)])
    (hhandlers : s.system.handlers = hs ++ [.getTask (.returned (some task))]) (hne : task.taskId ≠ -1) :
    Reaches Fleet.step (fun _ act => FailureFree act) s
      { system := { s.system with
          handlers := s.system.handlers ++ [.submitResult (.remove (timeoutOf task))] }
        workers := [(workerA, .awaiting s.system.handlers.length)] } := by
  have hgo : Event.go ≠ .rpcError ∧ Event.go ≠ .giveUp := ⟨by simp, by simp⟩
  have hreceive : Worker.step workerA s.system (.waiting hs.length) .go =
      some (s.system, .solving task) := by
    simp [Worker.step, hhandlers, hne]
  have hsolving := Fleet.reaches_only .go hworkers hgo hreceive
  have hanswers : Worker.step workerA s.system (.solving task) (.answer "0" 30 true) =
      some (s.system, .submitting (timeoutOf task)) := rfl
  have hsubmitting := hsolving.trans (Fleet.reaches_only _ rfl ⟨by simp, by simp⟩ hanswers)
  exact hsubmitting.trans (Fleet.reaches_only .go rfl hgo rfl)

/-- **The worker's next task times out.** -/
theorem Fleet.Backlog.splits {n : ℕ} (h : s.Backlog (n + 1)) : ∃ s', Fleet.Splits n s' := by
  obtain ⟨task, rest, hqueue⟩ : ∃ task rest, s.system.server.taskManager.taskQueue = task :: rest :=
    List.exists_cons_of_length_eq_add_one h.length
  have hmem : task.taskId ∈ s.system.server.taskManager.checkbook :=
    h.known task (by simp [hqueue])
  have hne : task.taskId ≠ -1 := by
    have hpos := System.ids_pos (Fleet.system_reachable h.run) hmem
    omega
  -- the worker takes the head of the queue
  let called : Fleet :=
    { system := { s.system with handlers := s.system.handlers ++ [.getTask (.register workerA)] }
      workers := [(workerA, .waiting s.system.handlers.length)] }
  have hcalled : called.Run := h.run.trans (Fleet.reaches_only .go h.polls ⟨by simp, by simp⟩ rfl)
  obtain ⟨m₁, task', hfetch, hid, hcfg₁, htm₁⟩ :=
    GetTask.fetches (w := workerA) h.uncapped h.free hqueue
  have hfetched := hcalled.trans (Fleet.reaches_alone (s := called) rfl (by decide) hfetch)
  -- and submits it
  have hsubmitted := hfetched.trans (Fleet.submits rfl rfl (by rwa [hid]))
  have hmem₁ : (timeoutOf task').taskId ∈ m₁.taskManager.checkbook := by
    show task'.taskId ∈ _
    rw [htm₁, hid]
    exact mem_recordAssignment.mpr hmem
  obtain ⟨entry, hl⟩ := Option.isSome_iff_exists.mp (AList.lookup_isSome.mpr hmem₁)
  have hfree₁ : m₁.taskManager.mu = false := by
    rw [htm₁, TaskManager.mu_recordAssignment]
    exact h.free
  obtain ⟨m₂, c₁, c₂, hsplit, hcfg₂, htm₂⟩ := SubmitResult.splits hfree₁ hl rfl
  have hsplits := hsubmitted.trans (Fleet.reaches_alone rfl (by simp) hsplit)
  have hqueue₂ : m₂.taskManager.taskQueue = rest := by
    rw [htm₂]
    show (m₁.taskManager.deleteTask _).taskQueue = rest
    rw [TaskManager.taskQueue_deleteTask, htm₁, TaskManager.taskQueue_recordAssignment]
  refine ⟨_, hsplits, ⟨_, _, _, c₁, c₂, rfl, rfl⟩, ?_, ?_, ?_, ?_⟩
  · show m₂.taskManager.mu = false
    rw [htm₂]
    rfl
  · show m₂.cfg.maxWorkers ≤ 0
    rw [hcfg₂, hcfg₁]
    exact h.uncapped
  · intro task₂ hmem₂
    have hrest : task₂ ∈ rest := hqueue₂ ▸ hmem₂
    show task₂.taskId ∈ m₂.taskManager.checkbook
    have herase : m₂.taskManager.checkbook = m₁.taskManager.checkbook.erase task'.taskId := by
      rw [htm₂]
      show (m₁.taskManager.deleteTask task'.taskId).checkbook = _
      have hl' : m₁.taskManager.checkbook.lookup task'.taskId = some entry := hl
      rw [TaskManager.deleteTask, hl']
    rw [herase, AList.mem_erase]
    refine ⟨?_, ?_⟩
    · rw [hid]
      exact Fleet.Run.head_notMem h.run hqueue task₂ hrest
    · rw [htm₁]
      exact mem_recordAssignment.mpr (h.known task₂ (hqueue ▸ List.mem_cons_of_mem _ hrest))
  · show m₂.taskManager.taskQueue.length = n
    rw [hqueue₂]
    have hlength : (task :: rest).length = n + 1 := hqueue ▸ h.length
    exact Nat.succ.inj hlength

/-- **The queue grows** by one task with every timeout, as long as both new tasks find a slot. -/
theorem Fleet.Splits.grows {n : ℕ} (h : s.Splits n) (hroom : n + 2 ≤ queueCapacity) :
    ∃ s', Fleet.Backlog (n + 2) s' := by
  obtain ⟨hs, r, cube, c₁, c₂, hworkers, hhandlers⟩ := h.awaits
  have hlength : s.system.server.taskManager.taskQueue.length = n := h.length
  obtain ⟨m₁, hfirst, hcfg₁, hfree₁, hknown₁, hlen₁⟩ :=
    SubmitResult.enqueues r cube c₁ [c₁, c₂] [c₂] h.free h.known (by omega)
  obtain ⟨m₂, hsecond, hcfg₂, -, hknown₂, hlen₂⟩ :=
    SubmitResult.enqueues r cube c₂ [c₁, c₂] [] hfree₁ hknown₁ (by omega)
  obtain ⟨cs, hcs, hlast⟩ := SubmitResult.finishes (m := m₂) r cube [c₁, c₂]
    (List.ne_nil_of_length_pos (by omega))
  have hrun₁ := h.run.trans (Fleet.reaches_alone hhandlers (by decide) hfirst)
  have hrun₂ := hrun₁.trans (Fleet.reaches_alone rfl (by decide) hsecond)
  have hrun₃ := hrun₂.trans (Fleet.reaches_alone rfl hcs hlast)
  have hreturn := hrun₃.trans (Fleet.reaches_only .go hworkers ⟨by simp, by simp⟩ (by
    simp [Worker.step]; exact ⟨rfl, rfl⟩))
  refine ⟨_, hreturn, rfl, ?_, ?_, ?_⟩
  · show m₂.cfg.maxWorkers ≤ 0
    rw [hcfg₂, hcfg₁]
    exact h.uncapped
  · exact hknown₂
  · show m₂.taskManager.taskQueue.length = n + 2
    omega

/-- **The last slot** is taken by the first of two tasks, and the second one waits. -/
theorem Fleet.Splits.blocks {n : ℕ} (h : s.Splits n) (hlast : n + 1 = queueCapacity) :
    ∃ s' : Fleet, s'.Run ∧ s'.queued = queueCapacity ∧
      (∀ w ∈ s'.workers, w.2.sends s'.system.handlers = true) ∧ Known s'.system.server.taskManager := by
  obtain ⟨hs, r, cube, c₁, c₂, hworkers, hhandlers⟩ := h.awaits
  have hlength : s.system.server.taskManager.taskQueue.length = n := h.length
  obtain ⟨m₁, hfirst, -, hfree₁, hknown₁, hlen₁⟩ :=
    SubmitResult.enqueues r cube c₁ [c₁, c₂] [c₂] h.free h.known (by omega)
  have hrun₁ := h.run.trans (Fleet.reaches_alone hhandlers (by decide) hfirst)
  have hrun₂ := hrun₁.trans (Fleet.reaches_alone rfl (by decide)
    (SubmitResult.draws r cube c₂ [c₁, c₂] [] hfree₁))
  refine ⟨_, hrun₂, ?_, ?_, hknown₁.entered c₂⟩
  · show m₁.taskManager.taskQueue.length = queueCapacity
    omega
  · intro w hw
    rw [show w = _ from List.mem_singleton.mp (hworkers ▸ hw)]
    simp [Worker.sends, sending]

/-- Timeouts fill the queue. -/
theorem Fleet.Backlog.fills {n : ℕ} (h : s.Backlog (n + 1)) (k : ℕ) (hle : n + k < queueCapacity) :
    ∃ s', Fleet.Backlog (n + k + 1) s' := by
  induction k with
  | zero => exact ⟨s, h⟩
  | succ k ih =>
      obtain ⟨s₁, hs₁⟩ := ih (by omega)
      obtain ⟨s₂, hs₂⟩ := hs₁.splits
      exact hs₂.grows (by omega)

/-- `Solve` runs while everybody else stands still. -/
theorem Fleet.reaches_solve {t : System} (n : ℕ)
    (hrun : exec System.step s.system (List.replicate n .solve) = some t) :
    Reaches Fleet.step (fun _ act => FailureFree act) s { s with system := t } := by
  induction n generalizing s with
  | zero =>
      obtain rfl := Option.some.inj hrun
      exact .start
  | succ n ih =>
      obtain ⟨t₁, hone, hrest⟩ := Option.bind_eq_some_iff.mp hrun
      have hstep : s.step .solve = some { s with system := t₁ } := by
        rw [Fleet.step, hone]
        rfl
      have hfree : FailureFree .solve := trivial
      exact Reaches.trans (.next .start hfree hstep) (ih (s := { s with system := t₁ }) hrest)

/-- `Solve` has loaded the 64 cubes of `main`. -/
theorem Fleet.backlog_loaded : ∃ s, Fleet.Backlog 64 s := by
  have hrun : (exec System.step sevenVarsInit (List.replicate 259 .solve)).map (fun t =>
      (decide (t.server.cfg.maxWorkers ≤ 0),
        t.server.taskManager.taskQueue.all fun task =>
          decide (task.taskId ∈ t.server.taskManager.checkbook.keys),
        t.server.taskManager.taskQueue.length)) =
      some (true, true, 64) := by
    decide +kernel
  obtain ⟨t, ht, htriple⟩ := Option.map_eq_some_iff.mp hrun
  obtain ⟨hcap, hpair⟩ := Prod.mk.inj htriple
  obtain ⟨hknown, hlength⟩ := Prod.mk.inj hpair
  refine ⟨{ oneWorkerInit with system := t }, Fleet.reaches_solve 259 ht, rfl, of_decide_eq_true hcap,
    ?_, hlength⟩
  intro task hmem
  exact AList.mem_keys.mpr (of_decide_eq_true (List.all_eq_true.mp hknown task hmem))

/-- **The deadlock.**  One worker whose tasks all time out: the queue is full, the worker waits for a
handler that waits for a slot, tasks are outstanding, and nobody can move. -/
theorem Fleet.deadlocks :
    ∃ s : Fleet,
      Reaches Fleet.step (fun _ act => FailureFree act) (Fleet.init sevenVarsInit [workerA]) s ∧
      s.queued = queueCapacity ∧ (∀ w ∈ s.workers, w.2.sends s.system.handlers = true) ∧ ¬s.GoesOn := by
  obtain ⟨s₀, hloaded⟩ := Fleet.backlog_loaded
  obtain ⟨s₁, hbacklog⟩ := hloaded.fills 9936 (by decide)
  obtain ⟨s₂, hsplits⟩ := hbacklog.splits
  obtain ⟨s, hrun, hfull, hall, hknown⟩ := hsplits.blocks rfl
  refine ⟨s, hrun, hfull, hall, fun hgoes => (Fleet.served hrun).stuck hfull hall (hgoes ?_)⟩
  have hpos : 0 < s.system.server.taskManager.taskQueue.length := by
    show 0 < s.queued
    rw [hfull]
    decide
  obtain ⟨task, hmem⟩ := List.exists_mem_of_length_pos hpos
  have hkey := AList.mem_keys.mp (hknown task hmem)
  rw [AList.keys, List.keys] at hkey
  intro hnil
  rw [TaskManager.outstanding, List.map_eq_nil_iff] at hnil
  rw [hnil] at hkey
  exact List.not_mem_nil hkey

end HydraSAT.Cluster
