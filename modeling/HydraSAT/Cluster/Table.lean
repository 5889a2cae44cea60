import HydraSAT.Cluster.Clients

/-!
# One worker in the table and in the checkbook

A worker's entry is found under its hostname and id; `GetTask` takes the hostname from the worker,
`SubmitResult` takes it from the checkbook, where an earlier `GetTask` has put it.

* `Distinguished.eq_of_key`: the keys of the workers are distinct;
* `Phase`: what the table and the checkbook say about a worker, for each control point of its running
  call;
* `Phase.congr`: the steps of the others do not matter, by `HandlerMove.entryOf_other` and
  `HandlerMove.lookup_other`;
* `GetTaskMove.phase` and `SubmitMove.phase`: a move of the worker's own call goes from phase to phase.
-/

namespace HydraSAT.Cluster

open HydraSAT.Lib HydraSAT.Master

/-! ### Keys of the table -/

/-- Equal words with a separator in neither first part have equal parts. -/
theorem append_cons_inj {α : Type*} {a : α} {x₁ x₂ y₁ y₂ : List α} (h₁ : a ∉ x₁) (h₂ : a ∉ x₂)
    (h : x₁ ++ a :: y₁ = x₂ ++ a :: y₂) : x₁ = x₂ ∧ y₁ = y₂ := by
  induction x₁ generalizing x₂ with
  | nil =>
      cases x₂ with
      | nil => exact ⟨rfl, (List.cons.inj h).2⟩
      | cons b x₂ => exact absurd ((List.cons.inj h).1 ▸ List.mem_cons_self) h₂
  | cons c x₁ ih =>
      cases x₂ with
      | nil => exact absurd ((List.cons.inj h).1 ▸ List.mem_cons_self) h₁
      | cons b x₂ =>
          obtain ⟨rfl, hrest⟩ := List.cons.inj h
          obtain ⟨rfl, rfl⟩ := ih (fun hm => h₁ (List.mem_cons_of_mem _ hm))
            (fun hm => h₂ (List.mem_cons_of_mem _ hm)) hrest
          exact ⟨rfl, rfl⟩

/-- The workers can be told apart by their keys: their identities are distinct, and no hostname contains
the separator. -/
structure Distinguished (workers : List WorkerIdentity) : Prop where
  nodup : workers.Nodup
  separated : ∀ w ∈ workers, '\x00' ∉ w.hostname.toList

/-- The key of a worker. -/
def keyOf (w : WorkerIdentity) : String := workerKey w.hostname w.workerId

theorem Distinguished.eq_of_key {workers : List WorkerIdentity} (h : Distinguished workers) {j k : ℕ}
    {w v : WorkerIdentity} (hw : workers[j]? = some w) (hv : workers[k]? = some v)
    (hkey : keyOf w = keyOf v) : j = k := by
  have hsep : ("\x00" : String).toList = ['\x00'] := rfl
  have hlist := congrArg String.toList hkey
  simp only [keyOf, workerKey, String.toList_append, hsep, List.append_assoc, List.singleton_append]
    at hlist
  obtain ⟨hhost, hid⟩ := append_cons_inj (h.separated w (List.mem_of_getElem? hw))
    (h.separated v (List.mem_of_getElem? hv)) hlist
  have hwv : w = v := by
    have hhost := String.toList_inj.mp hhost
    have hid := String.toList_inj.mp hid
    cases w
    cases v
    subst hhost hid
    rfl
  obtain ⟨hj, hgetj⟩ := List.getElem?_eq_some_iff.mp hw
  obtain ⟨hk, hgetk⟩ := List.getElem?_eq_some_iff.mp hv
  rw [← hwv, ← hgetj] at hgetk
  exact (h.nodup.getElem_inj_iff.mp hgetk).symm

/-! ### The entry of a worker -/

/-- The entry of a worker. -/
def entryOf (wt : WorkerTracker) (w : WorkerIdentity) : Option WorkerState :=
  wt.workers.lookup (keyOf w)

/-- The table has the worker as BUSY with the task. -/
def BusyWith (wt : WorkerTracker) (w : WorkerIdentity) (x : ℤ) : Prop :=
  ∃ e, entryOf wt w = some e ∧ e.status = .busy ∧ e.currentTaskID = x

/-- `tasksFailed` or `tasksCompleted` of a worker, which is zero before it registers. -/
def tallyOf (failed : Bool) (wt : WorkerTracker) (w : WorkerIdentity) : ℤ :=
  (entryOf wt w).elim 0 fun e => if failed then e.tasksFailed else e.tasksCompleted

theorem entryOf_modify_self (wt : WorkerTracker) (w : WorkerIdentity) (f : WorkerState → WorkerState) :
    entryOf (wt.modify w.hostname w.workerId f) w = (entryOf wt w).map f := by
  unfold entryOf WorkerTracker.modify keyOf
  split
  · rename_i e he
    rw [AList.lookup_insert, he]
    rfl
  · rename_i hnone
    rw [hnone]
    rfl

theorem entryOf_modify_ne (wt : WorkerTracker) {w : WorkerIdentity} {hostname workerID : String}
    (h : keyOf w ≠ workerKey hostname workerID) (f : WorkerState → WorkerState) :
    entryOf (wt.modify hostname workerID f) w = entryOf wt w := by
  unfold entryOf WorkerTracker.modify
  split
  · exact AList.lookup_insert_ne h
  · rfl

theorem entryOf_register_self (wt : WorkerTracker) (w : WorkerIdentity) :
    ∃ e, entryOf (wt.registerWorker w.workerId w.hostname) w = some e ∧
      (entryOf wt w = some e ∨
        entryOf wt w = none ∧ e.status = .idle ∧ e.tasksCompleted = 0 ∧ e.tasksFailed = 0) := by
  unfold entryOf WorkerTracker.registerWorker keyOf
  split
  · rename_i e he
    exact ⟨e, he, .inl he⟩
  · rename_i hnone
    exact ⟨_, AList.lookup_insert _, .inr ⟨hnone, rfl, rfl, rfl⟩⟩

theorem entryOf_register_ne (wt : WorkerTracker) {w v : WorkerIdentity} (h : keyOf w ≠ keyOf v) :
    entryOf (wt.registerWorker v.workerId v.hostname) w = entryOf wt w := by
  unfold entryOf WorkerTracker.registerWorker
  split
  · rfl
  · exact AList.lookup_insert_ne h

/-! ### Where a worker stands -/

/-- Nothing that the worker was given is outstanding, and, if it was not BUSY from the start, it is not
BUSY. -/
def Resting (fresh : Prop) (m : MasterServer) (given : List ℤ) (w : WorkerIdentity) : Prop :=
  (∀ x ∈ given, x ∉ m.taskManager.checkbook) ∧ (fresh → ∀ x, ¬ BusyWith m.workerTracker w x)

/-- The checkbook has the task with the hostname of the worker. -/
def BookedFor (m : MasterServer) (w : WorkerIdentity) (x : ℤ) : Prop :=
  ∃ entry, m.taskManager.checkbook.lookup x = some entry ∧ entry.hostname = w.hostname

/-- The worker is BUSY with the one task it was given that is outstanding. -/
structure Holding (m : MasterServer) (given : List ℤ) (w : WorkerIdentity) (x : ℤ) : Prop where
  busy : BusyWith m.workerTracker w x
  mine : x ∈ given
  booked : BookedFor m w x
  only : ∀ y ∈ given, y ∈ m.taskManager.checkbook → y = x

/-- A worker between two calls. -/
def Stands (fresh : Prop) (m : MasterServer) (given : List ℤ) (w : WorkerIdentity) : Prop :=
  Resting fresh m given w ∨ ∃ x, Holding m given w x

/-- The worker is BUSY with a task that has just left the checkbook. -/
def Settling (m : MasterServer) (given : List ℤ) (w : WorkerIdentity) (x : ℤ) : Prop :=
  (∀ y ∈ given, y ∉ m.taskManager.checkbook) ∧ BusyWith m.workerTracker w x

/-- The worker has an entry. -/
def Registered (m : MasterServer) (w : WorkerIdentity) : Prop :=
  ∃ e, entryOf m.workerTracker w = some e

/-- **What holds of a worker**, by the control point of its running call. -/
def Phase (fresh : Prop) (m : MasterServer) (given : List ℤ) (w : WorkerIdentity) : Handler → Prop
  | .getTask (.register _) => Resting fresh m given w
  | .getTask (.stamp _ task) =>
      Resting fresh m given w ∧ Registered m w ∧ task.taskId ∈ m.taskManager.checkbook
  | .getTask (.record _ task) =>
      Resting fresh m given w ∧ Registered m w ∧ task.taskId ∈ m.taskManager.checkbook
  | .getTask (.assign _ task) => Resting fresh m given w ∧ Registered m w ∧ BookedFor m w task.taskId
  | .getTask (.returned _) => Stands fresh m given w
  | .getTask _ => Resting fresh m given w ∧ Registered m w
  | .submitResult (.remove _) => Stands fresh m given w
  | .submitResult (.release r hostname _) =>
      Settling m given w r.taskId ∧ hostname = w.hostname
  | .submitResult (.updateWorker r hostname _) =>
      Settling m given w r.taskId ∧ hostname = w.hostname
  | .submitResult (.returned _) => Stands fresh m given w
  | .submitResult _ => Resting fresh m given w

theorem BookedFor.mem {m : MasterServer} {w : WorkerIdentity} {x : ℤ} (h : BookedFor m w x) :
    x ∈ m.taskManager.checkbook := by
  obtain ⟨entry, hl, -⟩ := h
  exact AList.lookup_isSome.mp (by rw [hl]; rfl)

/-- A dequeued task is outstanding until its worker has it. -/
theorem Phase.fetched_mem {fresh : Prop} {m : MasterServer} {given : List ℤ} {w : WorkerIdentity}
    {h : Handler} (hp : Phase fresh m given w h) {x : ℤ} (hx : x ∈ fetched h) :
    x ∈ m.taskManager.checkbook := by
  cases h with
  | getTask g =>
      cases g with
      | stamp u task => exact List.mem_singleton.mp hx ▸ hp.2.2
      | record u task => exact List.mem_singleton.mp hx ▸ hp.2.2
      | assign u task => exact List.mem_singleton.mp hx ▸ hp.2.2.mem
      | _ => exact absurd hx List.not_mem_nil
  | submitResult g => exact absurd hx List.not_mem_nil

/-- Between its calls a worker rests or holds a task. -/
theorem Phase.at_rest {fresh : Prop} {m : MasterServer} {given : List ℤ} {w : WorkerIdentity}
    {h : Handler} (hp : Phase fresh m given w h) (hret : returned h = true) :
    Stands fresh m given w := by
  cases h with
  | getTask g =>
      cases g with
      | returned reply => exact hp
      | _ => exact Bool.noConfusion hret
  | submitResult g =>
      cases g with
      | returned ok => exact hp
      | _ => exact Bool.noConfusion hret

/-! ### The steps of the others -/

section Frame

variable {fresh : Prop} {m m' : MasterServer} {given given' : List ℤ} {w : WorkerIdentity}

theorem mem_checkbook_congr {x : ℤ}
    (h : m'.taskManager.checkbook.lookup x = m.taskManager.checkbook.lookup x) :
    x ∈ m'.taskManager.checkbook ↔ x ∈ m.taskManager.checkbook := by
  rw [← AList.lookup_isSome, ← AList.lookup_isSome, h]

theorem BusyWith.congr {x : ℤ} (hentry : entryOf m'.workerTracker w = entryOf m.workerTracker w) :
    BusyWith m'.workerTracker w x ↔ BusyWith m.workerTracker w x := by
  unfold BusyWith
  rw [hentry]

theorem Resting.congr (h : Resting fresh m given w)
    (hentry : entryOf m'.workerTracker w = entryOf m.workerTracker w)
    (hgiven : ∀ x, x ∈ given' ↔ x ∈ given)
    (hbook : ∀ x ∈ given, m'.taskManager.checkbook.lookup x = m.taskManager.checkbook.lookup x) :
    Resting fresh m' given' w := by
  refine ⟨fun x hx => ?_, fun hfresh x => ?_⟩
  · have hx := (hgiven x).mp hx
    rw [mem_checkbook_congr (hbook x hx)]
    exact h.1 x hx
  · rw [BusyWith.congr hentry]
    exact h.2 hfresh x

theorem Holding.congr {x : ℤ} (h : Holding m given w x)
    (hentry : entryOf m'.workerTracker w = entryOf m.workerTracker w)
    (hgiven : ∀ x, x ∈ given' ↔ x ∈ given)
    (hbook : ∀ x ∈ given, m'.taskManager.checkbook.lookup x = m.taskManager.checkbook.lookup x) :
    Holding m' given' w x where
  busy := (BusyWith.congr hentry).mpr h.busy
  mine := (hgiven x).mpr h.mine
  booked := by
    unfold BookedFor
    rw [hbook x h.mine]
    exact h.booked
  only y hy hmem := by
    have hy := (hgiven y).mp hy
    exact h.only y hy ((mem_checkbook_congr (hbook y hy)).mp hmem)

theorem Stands.congr (h : Stands fresh m given w)
    (hentry : entryOf m'.workerTracker w = entryOf m.workerTracker w)
    (hgiven : ∀ x, x ∈ given' ↔ x ∈ given)
    (hbook : ∀ x ∈ given, m'.taskManager.checkbook.lookup x = m.taskManager.checkbook.lookup x) :
    Stands fresh m' given' w :=
  h.imp (fun hrest => hrest.congr hentry hgiven hbook)
    fun ⟨x, hx⟩ => ⟨x, hx.congr hentry hgiven hbook⟩

theorem Settling.congr {x : ℤ} (h : Settling m given w x)
    (hentry : entryOf m'.workerTracker w = entryOf m.workerTracker w)
    (hgiven : ∀ x, x ∈ given' ↔ x ∈ given)
    (hbook : ∀ x ∈ given, m'.taskManager.checkbook.lookup x = m.taskManager.checkbook.lookup x) :
    Settling m' given' w x := by
  refine ⟨fun y hy => ?_, (BusyWith.congr hentry).mpr h.2⟩
  have hy := (hgiven y).mp hy
  rw [mem_checkbook_congr (hbook y hy)]
  exact h.1 y hy

/-- **The frame.**  Where a worker stands does not change with a step that leaves alone its entry and
the tasks that it has. -/
theorem Phase.congr {h : Handler} (hp : Phase fresh m given w h)
    (hentry : entryOf m'.workerTracker w = entryOf m.workerTracker w)
    (hgiven : ∀ x, x ∈ given' ↔ x ∈ given)
    (hbook : ∀ x, x ∈ given ∨ x ∈ fetched h →
      m'.taskManager.checkbook.lookup x = m.taskManager.checkbook.lookup x) :
    Phase fresh m' given' w h := by
  have hbook' := fun x hx => hbook x (.inl hx)
  have hrest := fun hr : Resting fresh m given w => hr.congr hentry hgiven hbook'
  have hstand := fun hs : Stands fresh m given w => hs.congr hentry hgiven hbook'
  have hreg : Registered m w → Registered m' w := fun ⟨e, he⟩ => ⟨e, hentry.trans he⟩
  cases h with
  | getTask g =>
      cases g with
      | register w₀ => exact hrest hp
      | stamp w₀ task =>
          refine ⟨hrest hp.1, hreg hp.2.1, ?_⟩
          exact (mem_checkbook_congr (hbook _ (.inr List.mem_cons_self))).mpr hp.2.2
      | record w₀ task =>
          refine ⟨hrest hp.1, hreg hp.2.1, ?_⟩
          exact (mem_checkbook_congr (hbook _ (.inr List.mem_cons_self))).mpr hp.2.2
      | assign w₀ task =>
          refine ⟨hrest hp.1, hreg hp.2.1, ?_⟩
          unfold BookedFor
          rw [hbook _ (.inr List.mem_cons_self)]
          exact hp.2.2
      | returned reply => exact hstand hp
      | checkCap w₀ => exact ⟨hrest hp.1, hreg hp.2⟩
      | select w₀ => exact ⟨hrest hp.1, hreg hp.2⟩
      | setIdle w₀ => exact ⟨hrest hp.1, hreg hp.2⟩
  | submitResult g =>
      cases g with
      | remove r => exact hstand hp
      | release r hostname cube => exact ⟨hp.1.congr hentry hgiven hbook', hp.2⟩
      | updateWorker r hostname cube => exact ⟨hp.1.congr hentry hgiven hbook', hp.2⟩
      | returned ok => exact hstand hp
      | _ => exact hrest hp

end Frame

/-! ### What a move changes -/

/-- A move of a handler touches the entry of its own worker only. -/
theorem HandlerMove.entryOf_other {workers : List WorkerIdentity} (hid : Distinguished workers)
    {d : Call} {m m' : MasterServer} {h' : Handler} (hm : HandlerMove m d.handler m' h')
    (hserves : Clients.Serves workers d) {fresh : Prop} {given : List ℤ} {w : WorkerIdentity}
    (hw : workers[d.worker]? = some w) (hphase : Phase fresh m given w d.handler) {j : ℕ}
    {v : WorkerIdentity} (hv : workers[j]? = some v) (hj : j ≠ d.worker) :
    entryOf m'.workerTracker v = entryOf m.workerTracker v := by
  have hkey : keyOf v ≠ keyOf w := fun heq => hj (hid.eq_of_key hv hw heq)
  obtain ⟨k, result, g⟩ := d
  cases hm with
  | getTask hg =>
      obtain ⟨-, hcaller⟩ := hserves
      have hsame : ∀ u, callerOf _ = some u → u = w := fun u hu =>
        Option.some.inj ((hcaller u hu).symm.trans hw)
      cases hg with
      | register u =>
          obtain rfl := hsame u rfl
          exact entryOf_register_ne _ hkey
      | assign u task =>
          obtain rfl := hsame u rfl
          exact entryOf_modify_ne _ hkey _
      | setIdle u =>
          obtain rfl := hsame u rfl
          exact entryOf_modify_ne _ hkey _
      | _ => rfl
  | submitResult hm =>
      obtain ⟨r, -, hresult, u, hu, hworker⟩ := hserves
      obtain rfl := Option.some.inj (hu.symm.trans hw)
      have hupdate : ∀ r' hostname cube,
          Phase fresh m given u (.submitResult (.updateWorker r' hostname cube)) →
          resultOf (.updateWorker r' hostname cube) = some r' → (∀ r'', some r' = some r'' → r'' = r) →
          entryOf (m.updateWorker r' hostname).workerTracker v = entryOf m.workerTracker v := by
        intro r' hostname cube hphase _ hr'
        have hhost : hostname = u.hostname := hphase.2
        have heq : r' = r := hr' r' rfl
        refine entryOf_modify_ne _ ?_ _
        rw [hhost, heq, hworker]
        exact hkey
      cases hm with
      | timedOut r' hostname cube _ => exact hupdate r' hostname cube hphase rfl hresult
      | parsed r' hostname cube val _ _ => exact hupdate r' hostname cube hphase rfl hresult
      | unparsed r' hostname cube _ _ => exact hupdate r' hostname cube hphase rfl hresult
      | _ => rfl

/-- A step of `EnqueueCubes` changes the entry of the drawn id only. -/
theorem enqueueStep_lookup {tm tm' : TaskManager} {e e' : EnqueueCubes}
    (he : enqueueStep tm e = some (tm', e')) {x : ℤ} (hx : x ∉ e.drawn) :
    tm'.checkbook.lookup x = tm.checkbook.lookup x := by
  rcases enqueueStep_cases he with ⟨cube, rest, rfl, rfl, rfl⟩ | ⟨id, cube, rest, rfl, -, rfl, rfl⟩ |
    ⟨id, cube, rest, rfl, rfl, rfl⟩ | ⟨task, rest, rfl, -, rfl, rfl⟩
  · rfl
  · exact AList.lookup_insert_ne fun heq => hx (List.mem_singleton.mpr heq)
  · rfl
  · rfl

/-- **A move of a handler changes the checkbook at its own tasks only**: the one it has dequeued, the
one it accepts a result for, and the one it has drawn. -/
theorem HandlerMove.lookup_other {m m' : MasterServer} {h h' : Handler} (hm : HandlerMove m h m' h')
    {x : ℤ} (hfetched : x ∉ fetched h) (hsubmitted : x ∉ submitted h) (hdrawn : x ∉ h.call.drawn) :
    m'.taskManager.checkbook.lookup x = m.taskManager.checkbook.lookup x := by
  cases hm with
  | getTask hg =>
      cases hg with
      | record w task _ =>
          have hne : x ≠ task.taskId := fun heq => hfetched (List.mem_singleton.mpr heq)
          show (m.taskManager.recordAssignment task.taskId w.hostname).checkbook.lookup x = _
          unfold TaskManager.recordAssignment
          split
          · exact AList.lookup_insert_ne hne
          · rfl
      | _ => rfl
  | submitResult hm =>
      cases hm with
      | accept r entry _ hl =>
          have hne : x ≠ r.taskId := fun heq => hsubmitted (List.mem_singleton.mpr heq)
          show (m.taskManager.deleteTask r.taskId).checkbook.lookup x = _
          unfold TaskManager.deleteTask
          rw [hl]
          exact AList.lookup_erase_ne hne
      | enqueue r cube newCubes e tm' e' he => exact enqueueStep_lookup he hdrawn
      | _ => rfl

/-! ### The steps of the worker's own call -/

section Own

variable {fresh : Prop} {m : MasterServer} {given given' : List ℤ} {w : WorkerIdentity}

/-- A worker whose entry is not BUSY rests, if it rested before. -/
theorem Resting.of_entry {m' : MasterServer} (h : Resting fresh m given w)
    (hgiven : ∀ x, x ∈ given' ↔ x ∈ given)
    (hbook : m'.taskManager.checkbook = m.taskManager.checkbook)
    (hentry : ∀ e, entryOf m'.workerTracker w = some e → entryOf m.workerTracker w = some e ∨
      e.status ≠ .busy) : Resting fresh m' given' w := by
  refine ⟨fun x hx => by rw [hbook]; exact h.1 x ((hgiven x).mp hx), fun hfresh x hbusy => ?_⟩
  obtain ⟨e, he, hstatus, hid⟩ := hbusy
  rcases hentry e he with hold | hnot
  · exact h.2 hfresh x ⟨e, hold, hstatus, hid⟩
  · exact hnot hstatus

theorem GetTaskMove.phase {g g' : GetTask} {m' : MasterServer} (hm : GetTaskMove m g m' g')
    (hcaller : ∀ u, callerOf g = some u → u = w)
    (hphase : Phase fresh m given w (.getTask g))
    (hgiven : ∀ x, x ∈ given' ↔ x ∈ given ∨ x ∈ replied (.getTask g'))
    (hqueue : ∀ task ∈ m.taskManager.taskQueue, task.taskId ∈ m.taskManager.checkbook)
    (hpos : ∀ x ∈ m.taskManager.checkbook, x ≠ -1) : Phase fresh m' given' w (.getTask g') := by
  have hsame : replied (.getTask g') = [] → ∀ x, x ∈ given' ↔ x ∈ given := fun hnil x => by
    rw [hgiven x, hnil]
    simp
  cases hm with
  | register u =>
      obtain rfl := hcaller u rfl
      obtain ⟨e, he, hnew⟩ := entryOf_register_self m.workerTracker u
      refine ⟨Resting.of_entry hphase (hsame rfl) rfl fun e' he' => ?_, e, he⟩
      obtain rfl : e = e' := Option.some.inj (he.symm.trans he')
      refine hnew.imp id fun ⟨_, hidle, _⟩ => ?_
      rw [hidle]
      decide
  | capped u _ => exact .inl (hphase.1.congr rfl (hsame rfl) fun _ _ => rfl)
  | uncapped u _ => exact ⟨hphase.1.congr rfl (hsame rfl) fun _ _ => rfl, hphase.2⟩
  | dequeue u task rest hq =>
      refine ⟨hphase.1.congr rfl (hsame rfl) fun _ _ => rfl, hphase.2, ?_⟩
      exact hqueue task (hq ▸ List.mem_cons_self)
  | after5s u => exact ⟨hphase.1.congr rfl (hsame rfl) fun _ _ => rfl, hphase.2⟩
  | ctxDone u => exact .inl (hphase.1.congr rfl (hsame rfl) fun _ _ => rfl)
  | stamp u task => exact ⟨hphase.1.congr rfl (hsame rfl) fun _ _ => rfl, hphase.2⟩
  | record u task _ =>
      obtain rfl := hcaller u rfl
      obtain ⟨hrest, hreg, hmem⟩ := hphase
      refine ⟨⟨fun x hx hin => ?_, hrest.2⟩, hreg, ?_⟩
      · exact hrest.1 x ((hsame rfl x).mp hx) (mem_recordAssignment.mp hin)
      · obtain ⟨entry, hl⟩ := Option.isSome_iff_exists.mp (AList.lookup_isSome.mpr hmem)
        refine ⟨{ entry with hostname := u.hostname }, ?_, rfl⟩
        show (m.taskManager.recordAssignment task.taskId u.hostname).checkbook.lookup task.taskId = _
        unfold TaskManager.recordAssignment
        rw [hl]
        exact AList.lookup_insert _
  | assign u task =>
      obtain rfl := hcaller u rfl
      obtain ⟨hrest, ⟨e, he⟩, hbooked⟩ := hphase
      have hreplied : replied (.getTask (.returned (some task))) = [task.taskId] :=
        if_neg (hpos _ hbooked.mem)
      have hentry : entryOf (m.workerTracker.assignTask u.workerId u.hostname task.taskId task.literals
          task.timeoutSec) u = some { e with
            status := .busy, currentTaskID := task.taskId, currentCube := task.literals
            taskTimeout := task.timeoutSec } := by
        rw [WorkerTracker.assignTask, entryOf_modify_self, he]
        rfl
      refine .inr ⟨task.taskId, ⟨_, hentry, rfl, rfl⟩, ?_, hbooked, fun y hy hin => ?_⟩
      · rw [hgiven, hreplied]
        exact .inr List.mem_cons_self
      · rw [hgiven, hreplied] at hy
        exact hy.elim (fun hy => absurd hin (hrest.1 y hy)) fun hy => List.mem_singleton.mp hy
  | setIdle u =>
      obtain rfl := hcaller u rfl
      refine .inl (hphase.1.of_entry (hsame rfl) rfl fun e he => .inr ?_)
      rw [WorkerTracker.setIdle, entryOf_modify_self] at he
      obtain ⟨e₀, -, rfl⟩ := Option.map_eq_some_iff.mp he
      exact fun hbusy => WorkerStatus.noConfusion hbusy

theorem SubmitMove.phase {g g' : SubmitResult} {m' : MasterServer} (hm : SubmitMove m g m' g')
    {r₀ : TaskResult} (hresult : ∀ r, resultOf g = some r → r = r₀)
    (hworker : r₀.workerId = w.workerId) (hmine : r₀.taskId ∈ given)
    (hphase : Phase fresh m given w (.submitResult g)) (hgiven : ∀ x, x ∈ given' ↔ x ∈ given)
    (hdrawn : ∀ x ∈ given, x ∉ g.call.drawn) : Phase fresh m' given' w (.submitResult g') := by
  have hupdate : ∀ r hostname cube, resultOf (.updateWorker r hostname cube) = some r → r = r₀ →
      Phase fresh m given w (.submitResult (.updateWorker r hostname cube)) →
      Resting fresh (m.updateWorker r hostname) given' w := by
    intro r hostname cube _ hr hphase
    obtain ⟨⟨hnone, -⟩, hhost⟩ := hphase
    subst hhost hr
    refine ⟨fun x hx => hnone x ((hgiven x).mp hx), fun _ x hbusy => ?_⟩
    obtain ⟨e, he, hstatus, -⟩ := hbusy
    have hentry : entryOf (m.workerTracker.updateWorkerResult w.workerId w.hostname r.timedOut) w =
        some e := by
      rw [← hworker]
      exact he
    rw [WorkerTracker.updateWorkerResult, entryOf_modify_self] at hentry
    obtain ⟨e₀, -, rfl⟩ := Option.map_eq_some_iff.mp hentry
    cases hto : r.timedOut with
    | true => simp [hto] at hstatus
    | false => simp [hto] at hstatus
  cases hm with
  | accept r entry _ hl =>
      obtain rfl := hresult r rfl
      have hmem : r.taskId ∈ m.taskManager.checkbook := AList.lookup_isSome.mp (by rw [hl]; rfl)
      obtain ⟨x, hx⟩ := hphase.resolve_left fun hrest => hrest.1 _ hmine hmem
      have hxr := hx.only _ hmine hmem
      refine ⟨⟨fun y hy hin => ?_, hxr ▸ hx.busy⟩, ?_⟩
      · have hin : y ∈ (m.taskManager.deleteTask r.taskId).checkbook := hin
        unfold TaskManager.deleteTask at hin
        rw [hl] at hin
        obtain ⟨hne, hin⟩ := AList.mem_erase.mp hin
        exact hne ((hx.only y ((hgiven y).mp hy) hin).trans hxr.symm)
      · obtain ⟨entry', hl', hhost⟩ := hx.booked
        rw [← hxr, hl] at hl'
        obtain rfl := Option.some.inj hl'
        exact hhost
  | reject r _ _ =>
      exact Stands.congr hphase rfl hgiven fun _ _ => rfl
  | release r hostname cube => exact ⟨hphase.1.congr rfl hgiven fun _ _ => rfl, hphase.2⟩
  | timedOut r hostname cube _ => exact hupdate r hostname cube rfl (hresult r rfl) hphase
  | parsed r hostname cube val _ _ => exact hupdate r hostname cube rfl (hresult r rfl) hphase
  | unparsed r hostname cube _ _ => exact hupdate r hostname cube rfl (hresult r rfl) hphase
  | enqueue r cube newCubes e tm' e' he =>
      exact Resting.congr hphase rfl hgiven fun x hx => enqueueStep_lookup he (hdrawn x hx)
  | someActive r _ => exact .inl (Resting.congr hphase rfl hgiven fun _ _ => rfl)
  | someQueued r _ => exact .inl (Resting.congr hphase rfl hgiven fun _ _ => rfl)
  | announce r => exact .inl (Resting.congr hphase rfl hgiven fun _ _ => rfl)
  | _ => exact Resting.congr hphase rfl hgiven fun _ _ => rfl

end Own

end HydraSAT.Cluster
