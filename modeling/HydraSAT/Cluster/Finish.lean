import HydraSAT.Cluster.EndToEnd
import HydraSAT.Cluster.Progress
import HydraSAT.Master.Effort
import HydraSAT.Master.Wakeup

/-!
# The end of a problem

If no call fails and no task of `k` or more literals times out, every step of the fleet takes a unit out of
what is left to do, except where a `GetTask` gives up waiting, and some other step is always possible until
`Solve` has returned.

* `Fleet.effort`: what is left to do, the workers included;
* `Fleet.steps_bounded`: how many steps a problem takes, apart from idle polling;
* `Fleet.can_finish`: whatever has happened, and whatever the processes will answer, `Solve` can be made to
  return.
-/

namespace HydraSAT.Cluster

open HydraSAT.Lib HydraSAT.Master

/-! ### What is left to do -/

/-- What is left of a worker's turn. -/
def Worker.effort (k : ℕ) (handlers : List Handler) : Worker → ℕ
  | .polling => 4
  | .waiting i => (handlers[i]?.map (Handler.effort k)).getD 0
  | .sleeping => 5
  | .solving _ => 9
  | .submitting _ => 8
  | .awaiting i => (handlers[i]?.map (Handler.effort k)).getD 0
  | .exited => 0

/-- What is left to do for the whole fleet. -/
def Fleet.effort (k : ℕ) (s : Fleet) : ℕ :=
  s.system.server.taskManager.effort k + s.system.solve.effort k +
    (s.workers.map fun w => w.2.effort k s.system.handlers).sum

/-- How many `GetTask` calls have had no task for their worker. -/
def Fleet.idles (s : Fleet) : ℕ := (s.system.handlers.map Handler.idles).sum

variable {k : ℕ}

theorem Worker.effort_exchange {pre post : List Handler} {h h' : Handler} {w : Worker}
    (hw : w.call ≠ some pre.length) :
    w.effort k (pre ++ h' :: post) = w.effort k (pre ++ h :: post) := by
  cases w with
  | waiting i =>
      have hi : i ≠ pre.length := fun heq => hw (congrArg some heq)
      show ((pre ++ h' :: post)[i]?.map _).getD 0 = _
      rw [getElem?_exchange hi]
      rfl
  | awaiting i =>
      have hi : i ≠ pre.length := fun heq => hw (congrArg some heq)
      show ((pre ++ h' :: post)[i]?.map _).getD 0 = _
      rw [getElem?_exchange hi]
      rfl
  | _ => rfl

theorem Worker.effort_self {pre post : List Handler} {h : Handler} {w : Worker}
    (hw : w.call = some pre.length) : w.effort k (pre ++ h :: post) = h.effort k := by
  cases w with
  | waiting i =>
      obtain rfl : i = pre.length := Option.some.inj hw
      simp [Worker.effort]
  | awaiting i =>
      obtain rfl : i = pre.length := Option.some.inj hw
      simp [Worker.effort]
  | _ => cases hw

theorem Worker.effort_arrive {handlers arrived : List Handler} {w : Worker}
    (hw : ∀ i, w.call = some i → i < handlers.length) :
    w.effort k (handlers ++ arrived) = w.effort k handlers := by
  cases w with
  | waiting i =>
      show ((handlers ++ arrived)[i]?.map _).getD 0 = _
      rw [List.getElem?_append_left (hw i rfl)]
      rfl
  | awaiting i =>
      show ((handlers ++ arrived)[i]?.map _).getD 0 = _
      rw [List.getElem?_append_left (hw i rfl)]
      rfl
  | _ => rfl

/-- **A step of a worker** takes one, if its call does not fail. -/
theorem WorkerMove.effort {ident : WorkerIdentity} {s t : System} {w w' : Worker} {e : Event}
    (hm : WorkerMove ident s w e t w') (he : e ≠ .rpcError ∧ e ≠ .giveUp) :
    w'.effort k t.handlers + 1 ≤ w.effort k s.handlers ∧
      (t.handlers.map Handler.idles).sum = (s.handlers.map Handler.idles).sum := by
  cases hm with
  | call => simp [Worker.effort, Handler.effort, GetTask.effort, Handler.idles]
  | submit r => simp [Worker.effort, Handler.effort, SubmitResult.effort, Handler.idles]
  | receive i task hret hne =>
      simp [Worker.effort, hret, Handler.effort, GetTask.effort, hne]
  | noWork i task hret hnone =>
      simp [Worker.effort, hret, Handler.effort, GetTask.effort, hnone]
  | cancelled i hret => simp [Worker.effort, hret, Handler.effort, GetTask.effort]
  | wake => exact ⟨le_refl _, rfl⟩
  | solve task count durationSec timedOut => exact ⟨le_refl _, rfl⟩
  | done i hret => simp [Worker.effort, hret, Handler.effort, SubmitResult.effort]
  | refused i hret => simp [Worker.effort, hret, Handler.effort, SubmitResult.effort]
  | exit w hw => exact absurd rfl he.2
  | _ => exact absurd rfl he.1

/-! ### Steady runs -/

/-- Only a task of less than `k` literals may time out. -/
def Shallow (k : ℕ) (task : TaskPayload) (r : TaskResult) : Prop :=
  r.timedOut = true → task.literals.length < k

/-- No call fails, nobody exits, and no task of `k` or more literals times out. -/
def Fleet.Steady (k : ℕ) (s : Fleet) (act : Action) : Prop :=
  FailureFree act ∧ s.Answers (Shallow k) act

theorem FailureFree.stays {act : Action} (h : FailureFree act) : Stays act := by
  rintro j rfl
  exact h.2 rfl

section Runs

variable {cfg : HeuristicConfig} {wt : WorkerTracker} {cnf : CNFData} {cubes : List Cube}
  {idents : List WorkerIdentity} {s s' : Fleet} {act : Action}

/-- **The master's part of a steady run**: tasks that time out are shallow, and outstanding tasks are
submitted only after they are handed out. -/
theorem Fleet.steady_system
    (hr : Reaches Fleet.step (Fleet.Steady k) (Fleet.init (.init cfg wt cnf cubes) idents) s) :
    Reaches System.step (fun t act => t.TimesOutAt k act ∧ t.KnownAt act)
      (.init cfg wt cnf cubes) s.system := by
  refine Fleet.system_reaches hr (fun t act hfree => ?_) fun s i c hr _ => ?_
  · exact ⟨fun i c _ _ hact => absurd hact (hfree i c), fun i c _ hact => absurd hact (hfree i c)⟩
  have hq : ∀ s act, Fleet.Steady k s act → s.Answers (Shallow k) act := fun _ _ hg => hg.2
  refine ⟨fun i' c' r entry hact hi hl hto => ?_, fun i' c' r hact hi _ => ?_⟩
  · obtain ⟨task, hshallow, hcube, -⟩ := Fleet.answer_of_lookup hr hq (List.mem_of_getElem? hi) hl
    rw [← hcube]
    exact hshallow hto
  · obtain ⟨task, ⟨hret, hne⟩, hid, -⟩ := (Fleet.traced hr hq).submitted r (List.mem_of_getElem? hi)
    have hsum := Clients.sum_owned (Fleet.system_reachable hr) hne
    have hone : (owned (.getTask (.returned (some task)))).count task.taskId = 1 := by
      simp [owned, fetched, replied, hne]
    have hle := List.single_le_sum (fun _ _ => Nat.zero_le _) _
      (List.mem_map_of_mem (f := fun h => (owned h).count task.taskId) hret)
    rw [hid]
    exact List.count_pos_iff.mp (by omega)

theorem Fleet.shallow_handlers
    (hr : Reaches Fleet.step (Fleet.Steady k) (Fleet.init (.init cfg wt cnf cubes) idents) s) :
    ∀ h ∈ s.system.handlers, h.Shallow k :=
  System.shallow ((Fleet.steady_system hr).mono fun _ _ hg => hg.1)

/-- **Every step takes one** out of what is left to do, unless it makes a `GetTask` give up. -/
theorem Fleet.effort_step
    (hr : Reaches Fleet.step (Fleet.Steady k) (Fleet.init (.init cfg wt cnf cubes) idents) s)
    (hg : s.Steady k act) (hs : s.step act = some s') :
    (s'.effort k + 1 ≤ s.effort k ∧ s.idles ≤ s'.idles) ∨
      (∃ i c h h', act = .handler i c ∧ s.system.handlers[i]? = some h ∧
        s'.system.handlers[i]? = some h' ∧ GivesUp s.system.server h h' ∧
        s'.idles = s.idles + 1 ∧ s'.effort k + 1 ≤ s.effort k + 7) := by
  have hsys := Fleet.system_reachable hr
  have hlisted := fun x => System.listed_le hsys x
  have hattends := Fleet.attends (fun _ _ hg => hg.1.stays) hr
  cases Fleet.step_cases hs with
  | @solve t ht =>
      obtain ⟨⟨server, p⟩, hp, rfl⟩ := Option.map_eq_some_iff.mp ht
      have hstep := (Solve.move_of_step hp).effort (k := k) fun x hx =>
        System.fresh (hlisted x) (.inl hx)
      refine .inl ⟨?_, le_refl _⟩
      simp only [Fleet.effort]
      omega
  | @handler pre h post server h' c heq hm =>
      have hself : s.system.handlers[pre.length]? = some h := by simp [heq]
      have hmem : h ∈ s.system.handlers := List.mem_of_getElem? hself
      have hmove := hm.effort (k := k)
        (fun x hx => System.fresh (hlisted x) (.inr ⟨h, hmem, hx⟩))
        (fun r cube hh => by
          have hshallow := Fleet.shallow_handlers hr h hmem
          rwa [hh] at hshallow)
      -- exactly one worker waits for the handler
      obtain ⟨u, hu, hserves⟩ := Fleet.served (hr.mono fun _ _ hg => hg.1) pre.length h hself
        (HandlerMove.not_returned hm)
      have hcall : u.2.call = some pre.length := by
        rcases hserves with hw | hw <;> rw [hw] <;> rfl
      obtain ⟨left, right, hworkers⟩ := List.append_of_mem hu
      have hsole := Fleet.sole (fun _ _ hg => hg.1.stays) hr
      have hothers : ∀ v, v ∈ left ∨ v ∈ right →
          v.2.effort k (pre ++ h' :: post) = v.2.effort k (pre ++ h :: post) := fun v hv =>
        Worker.effort_exchange (hsole.others hworkers hcall hv)
      have hsum : (s.workers.map fun w => w.2.effort k (pre ++ h' :: post)).sum + h.effort k =
          (s.workers.map fun w => w.2.effort k (pre ++ h :: post)).sum + h'.effort k := by
        rw [hworkers]
        simp only [List.map_append, List.map_cons, List.sum_append, List.sum_cons,
          Worker.effort_self hcall]
        rw [List.map_congr_left fun v hv => hothers v (.inl hv),
          List.map_congr_left fun v hv => hothers v (.inr hv)]
        omega
      have hidles : ((pre ++ h' :: post).map Handler.idles).sum + h.idles =
          ((pre ++ h :: post).map Handler.idles).sum + h'.idles := by
        simp only [List.map_append, List.map_cons, List.sum_append, List.sum_cons]
        omega
      simp only [Fleet.effort, Fleet.idles, heq]
      rcases hmove with ⟨heffort, hle⟩ | ⟨hgives, hidle, heffort⟩
      · exact .inl ⟨by omega, by omega⟩
      · exact .inr ⟨pre.length, c, h, h', rfl, by simp, by simp, hgives, by omega, by omega⟩
  | @worker pre ident w post e t w' heq hm =>
      obtain ⟨hmoved, hidles⟩ := hm.effort (k := k) hg.1
      obtain ⟨hserver, hsolve, arrived, hhandlers⟩ := hm.frame
      have hothers : ∀ v, v ∈ pre ∨ v ∈ post →
          v.2.effort k t.handlers = v.2.effort k s.system.handlers := by
        intro v hv
        have hin : v ∈ s.workers := by
          rw [heq]
          exact List.mem_append.mpr (hv.imp id (List.mem_cons_of_mem _))
        rw [hhandlers]
        exact Worker.effort_arrive fun i hi => (hattends v hin).call_lt hi
      refine .inl ⟨?_, hidles.ge⟩
      simp only [Fleet.effort, heq, hserver, hsolve, List.map_append, List.map_cons, List.sum_append,
        List.sum_cons]
      rw [List.map_congr_left fun v hv => hothers v (.inl hv),
        List.map_congr_left fun v hv => hothers v (.inr hv)]
      omega

/-- **How many steps a problem takes.**  With `main`'s 64 cubes, if no call fails and no task of `k` or
more literals times out, every run has at most `51 * 2 ^ k` steps, four for each worker, and seven for
each `GetTask` that had no task for its worker, whatever the interleaving. -/
theorem Fleet.steps_bounded {order : ℕ → List (ℤ × ℕ)} {n : ℕ} (hk : 6 ≤ k)
    (h : Takes Fleet.step (Fleet.Steady k)
      (Fleet.init (.init cfg wt cnf (initialCubes order)) idents) n s) :
    n + 1531 ≤ 51 * 2 ^ k + 4 * idents.length + 7 * s.idles := by
  have hbound := h.steps_le (fun s => s.effort k) (fun s => 7 * s.idles) fun s act s' hr hg hs => by
    rcases Fleet.effort_step hr hg hs with ⟨heffort, hidles⟩ | ⟨-, -, -, -, -, -, -, -, hidles, heffort⟩
    · show s'.effort k + 1 + 7 * s.idles ≤ s.effort k + 7 * s'.idles
      omega
    · show s'.effort k + 1 + 7 * s.idles ≤ s.effort k + 7 * s'.idles
      omega
  have hworkers : ((Fleet.init (.init cfg wt cnf (initialCubes order)) idents).workers.map fun w =>
      w.2.effort k (Fleet.init (.init cfg wt cnf (initialCubes order)) idents).system.handlers).sum =
        4 * idents.length := by
    have hconst : (Fleet.init (.init cfg wt cnf (initialCubes order)) idents).workers.map (fun w =>
        w.2.effort k (Fleet.init (.init cfg wt cnf (initialCubes order)) idents).system.handlers) =
          List.replicate idents.length 4 := by
      rw [Fleet.init, List.map_map, ← List.map_const']
      exact List.map_congr_left fun _ _ => rfl
    rw [hconst, List.sum_replicate, smul_eq_mul, Nat.mul_comm]
  have hstart : (Fleet.init (.init cfg wt cnf (initialCubes order)) idents).effort k + 1531 =
      51 * 2 ^ k + 4 * idents.length := by
    have hcubes := toEnqueue_initialCubes hk order
    rw [Fleet.effort, hworkers]
    show 13 * 0 + 0 + (5 + toEnqueue k (initialCubes order)) + 4 * idents.length + 1531 = _
    omega
  have hnone : (Fleet.init (.init cfg wt cnf (initialCubes order)) idents).idles = 0 := rfl
  rw [hnone] at hbound
  omega

end Runs

/-! ### Some step is possible -/

/-- A handler that has not returned can move without giving up, if the mutex is free, no cap is reached,
the queue has room, and there is a task for a `GetTask` that waits for one. -/
theorem Handler.advances {m : MasterServer} (hmu : m.taskManager.mu = false) (hcap : m.capReached = false)
    (hroom : m.taskManager.taskQueue.length < queueCapacity) {h : Handler} (hret : returned h = false)
    (hq : ∀ w, h = .getTask (.select w) → m.taskManager.taskQueue ≠ []) :
    ∃ c m' h', c ≠ .ctxDone ∧ Handler.step m h c = some (m', h') ∧ ¬GivesUp m h h' := by
  cases h with
  | submitResult g =>
      obtain ⟨c, hc, hstep⟩ := SubmitResult.can_move hmu hret (.inl hroom)
      obtain ⟨⟨m', g'⟩, hp⟩ := Option.isSome_iff_exists.mp hstep
      exact ⟨c, m', .submitResult g', hc, by rw [Handler.step, hp]; rfl, by rintro ⟨⟩⟩
  | getTask g =>
      cases g with
      | select w =>
          obtain ⟨task, rest, hcons⟩ := List.exists_cons_of_ne_nil (hq w rfl)
          refine ⟨.go, m.dequeue task rest, .getTask (.stamp w task), by decide, ?_, by rintro ⟨⟩⟩
          simp [Handler.step, GetTask.step, hcons]
      | checkCap w =>
          refine ⟨.go, m, .getTask (.select w), by decide, by simp [Handler.step, GetTask.step, hcap], ?_⟩
          intro hgives
          cases hgives with
          | capped _ _ htrue =>
              rw [hcap] at htrue
              exact Bool.noConfusion htrue
      | record w task =>
          refine ⟨.go, { m with taskManager := m.taskManager.recordAssignment task.taskId w.hostname },
            .getTask (.assign w task), by decide, ?_, by rintro ⟨⟩⟩
          simp [Handler.step, GetTask.step, hmu]
      | register w => exact ⟨.go, _, _, by decide, rfl, by rintro ⟨⟩⟩
      | stamp w task => exact ⟨.go, _, _, by decide, rfl, by rintro ⟨⟩⟩
      | assign w task => exact ⟨.go, _, _, by decide, rfl, by rintro ⟨⟩⟩
      | setIdle w => exact ⟨.go, _, _, by decide, rfl, by rintro ⟨⟩⟩
      | returned reply => exact Bool.noConfusion hret

/-- A worker whose call has returned, or that makes none, can move; its process answers as told. -/
theorem Worker.advances (ident : WorkerIdentity) {t : System} {w : Worker}
    (hattends : w.Attends t.handlers)
    (hret : ∀ i h, w.call = some i → t.handlers[i]? = some h → returned h = true)
    (ans : TaskPayload → String × ℚ × Bool) :
    ∃ e t' w', (e ≠ .rpcError ∧ e ≠ .giveUp) ∧ Worker.step ident t w e = some (t', w') ∧
      ∀ task count durationSec timedOut, w = .solving task →
        e = .answer count durationSec timedOut → (count, durationSec, timedOut) = ans task := by
  have hgo : Event.go ≠ .rpcError ∧ Event.go ≠ .giveUp := ⟨by simp, by simp⟩
  cases w with
  | polling => exact ⟨.go, _, _, hgo, rfl, by rintro _ _ _ _ ⟨⟩⟩
  | sleeping => exact ⟨.go, _, _, hgo, rfl, by rintro _ _ _ _ ⟨⟩⟩
  | submitting r => exact ⟨.go, _, _, hgo, rfl, by rintro _ _ _ _ ⟨⟩⟩
  | exited => exact hattends.elim
  | solving task =>
      refine ⟨.answer (ans task).1 (ans task).2.1 (ans task).2.2, _, _, ⟨by simp, by simp⟩, rfl, ?_⟩
      intro task' count durationSec timedOut htask hanswer
      obtain rfl := Worker.solving.inj htask
      obtain ⟨rfl, rfl, rfl⟩ := Event.answer.inj hanswer
      rfl
  | waiting i =>
      obtain ⟨g, hg⟩ := hattends
      have hdone := hret i _ rfl hg
      obtain ⟨reply, rfl⟩ : ∃ reply, g = .returned reply := by
        cases g with
        | returned reply => exact ⟨reply, rfl⟩
        | _ => exact Bool.noConfusion hdone
      obtain ⟨p, hp⟩ : ∃ p, Worker.step ident t (.waiting i) .go = some p := by
        cases reply <;> simp [Worker.step, hg]
      exact ⟨.go, p.1, p.2, hgo, hp, by rintro _ _ _ _ ⟨⟩⟩
  | awaiting i =>
      obtain ⟨g, hg⟩ := hattends
      have hdone := hret i _ rfl hg
      obtain ⟨ok, rfl⟩ : ∃ ok, g = .returned ok := by
        cases g with
        | returned ok => exact ⟨ok, rfl⟩
        | _ => exact Bool.noConfusion hdone
      obtain ⟨p, hp⟩ : ∃ p, Worker.step ident t (.awaiting i) .go = some p := by
        cases ok <;> simp [Worker.step, hg]
      exact ⟨.go, p.1, p.2, hgo, hp, by rintro _ _ _ _ ⟨⟩⟩

/-- `Solve` can move if the mutex is free and the queue has room, unless it waits for the end or has
returned. -/
theorem Solve.advances {m : MasterServer} (hmu : m.taskManager.mu = false)
    (hroom : m.taskManager.taskQueue.length < queueCapacity) (p : Solve) :
    (∃ count, p = .returned count) ∨ (p = .wait ∧ m.done = false) ∨ (Solve.step m p).isSome = true := by
  cases p with
  | broadcast cubes => exact .inr (.inr rfl)
  | countTotal cubes => exact .inr (.inr rfl)
  | load e =>
      refine .inr (.inr ?_)
      cases e with
      | loop rest => cases rest <;> rfl
      | insert id c rest => simp [Solve.step, enqueueStep, hmu]
      | activate id c rest => rfl
      | send task rest => simp [Solve.step, enqueueStep, hroom]
  | wait =>
      cases hdone : m.done with
      | false => exact .inr (.inl ⟨rfl, rfl⟩)
      | true => exact .inr (.inr (by simp [Solve.step, hdone]))
  | logResult => exact .inr (.inr rfl)
  | returned count => exact .inl ⟨count, rfl⟩

/-- The handler has returned, or is a `GetTask` that waits for a task. -/
def AtRest (h : Handler) : Prop := returned h = true ∨ ∃ w, h = .getTask (.select w)

/-- A handler at rest has nothing to do with any task. -/
theorem AtRest.free {h : Handler} (hrest : AtRest h) :
    h.inWindow = false ∧ h.willTest = false ∧ holds h = [] := by
  rcases hrest with hret | ⟨w, rfl⟩
  · cases h with
    | getTask g =>
        cases g with
        | returned reply => exact ⟨rfl, rfl, rfl⟩
        | _ => exact Bool.noConfusion hret
    | submitResult g =>
        cases g with
        | returned ok => exact ⟨rfl, rfl, rfl⟩
        | _ => exact Bool.noConfusion hret
  · exact ⟨rfl, rfl, rfl⟩

section Runs

variable {cfg : HeuristicConfig} {wt : WorkerTracker} {cnf : CNFData} {cubes : List Cube}
  {idents : List WorkerIdentity} {s : Fleet}

/-- **No task gets lost** in a steady run. -/
theorem Fleet.placed_steady
    (hr : Reaches Fleet.step (Fleet.Steady k) (Fleet.init (.init cfg wt cnf cubes) idents) s) :
    ∀ x ∈ s.system.server.taskManager.checkbook, s.Placed x := by
  refine hr.invariant' (fun s => ∀ x ∈ s.system.server.taskManager.checkbook, s.Placed x)
    (fun x hx => absurd hx (AList.notMem_empty x)) ?_
  intro s act s' hr hold hg hs x hx
  have hattends := Fleet.attends (fun _ _ hg => hg.1.stays) hr
  cases Fleet.step_cases hs with
  | solve hsys =>
      cases System.move_of_step hsys with
      | solve hm => exact Fleet.Placed.solve hm hold hx
  | @handler pre h post server h' c heq hm =>
      refine Fleet.Placed.handler heq hm ?_ hold hx
      rintro ident task rfl
      have hself : s.system.handlers[pre.length]? = some (.getTask (.assign ident task)) := by simp [heq]
      obtain ⟨w, hw, hserves⟩ := Fleet.served (hr.mono fun _ _ hg => hg.1) _ _ hself rfl
      refine ⟨w, hw, hserves.resolve_right fun hawait => ?_⟩
      have hattend := hattends w hw
      rw [hawait] at hattend
      obtain ⟨g, hget⟩ := hattend
      cases Option.some.inj (hself.symm.trans hget)
  | @worker pre ident w post e t w' heq hm =>
      have hserver : t.server = s.system.server := hm.frame.1
      have hx' : x ∈ s.system.server.taskManager.checkbook := by
        rw [← hserver]
        exact hx
      have hpos := System.ids_pos (Fleet.system_reachable hr) hx'
      refine Fleet.Placed.worker heq hm ⟨?_, ?_, ?_⟩ ?_ hpos (hold x hx')
      · rintro i c ident task ⟨⟩
      · rintro j ident i task hact - -
        exact absurd (Action.worker.inj hact).2 hg.1.1
      · rintro j ident r hact -
        exact absurd (Action.worker.inj hact).2 hg.1.1
      · rintro rfl
        cases hm with
        | exit w hw => exact absurd rfl hg.1.2

/-- The queue never gets full, if the cubes do not allow that many tasks. -/
theorem Fleet.queue_lt (hfits : allowed k cubes < queueCapacity)
    (hr : Reaches Fleet.step (Fleet.Steady k) (Fleet.init (.init cfg wt cnf cubes) idents) s) :
    s.system.server.taskManager.taskQueue.length < queueCapacity := by
  have hsys : Reaches System.step (System.ShallowAt k) (.init cfg wt cnf cubes) s.system := by
    refine Fleet.system_reaches hr (fun t act hfree i c r cube hact => absurd hact (hfree i c)) ?_
    intro s i c hr _ i' c' r cube hact hi
    have hshallow := Fleet.shallow_handlers hr _ (List.mem_of_getElem? hi)
    exact hshallow
  have hle := System.allowance_le hsys
  have hsent := System.sent_le_nextID hsys.reachable
  have hserver := s.system.server.taskManager.descendants_nonneg (k := k)
  have hsolve := s.system.solve.allowed_nonneg (k := k)
  have hhandlers : 0 ≤ (s.system.handlers.map fun h => h.allowed k).sum :=
    List.sum_nonneg fun n hn => by
      obtain ⟨h, -, rfl⟩ := List.mem_map.mp hn
      exact h.allowed_nonneg
  simp only [System.allowance, System.total, MasterServer.allowance] at hle
  push_cast at hsent
  omega

/-- Without a cap no `GetTask` is refused. -/
theorem Fleet.uncapped (hcap : cfg.maxWorkers ≤ 0)
    (hr : Reaches Fleet.step (Fleet.Steady k) (Fleet.init (.init cfg wt cnf cubes) idents) s) :
    s.system.server.capReached = false := by
  have hcfg : s.system.server.cfg = cfg := by
    refine (Fleet.system_reachable hr).invariant (fun t => t.server.cfg = cfg) rfl ?_
    intro t act t' h _ hs
    cases System.move_of_step hs with
    | @solve server p hp =>
        refine Eq.trans ?_ h
        show server.cfg = t.server.cfg
        generalize t.solve = q at hp
        cases hp <;> rfl
    | getTask w => exact h
    | submitResult r => exact h
    | @handler pre g post server g' c _ hm =>
        refine Eq.trans ?_ h
        show server.cfg = t.server.cfg
        cases hm with
        | getTask hg => cases hg <;> rfl
        | submitResult hm => cases hm <;> rfl
  rw [MasterServer.capReached, hcfg, decide_eq_false (not_lt.mpr hcap)]
  rfl

/-- **The end is announced**: if everybody is at rest, `Solve` does not wait in vain. -/
theorem Fleet.announced_at_rest (hcubes : cubes ≠ [])
    (hr : Reaches Fleet.step (Fleet.Steady k) (Fleet.init (.init cfg wt cnf cubes) idents) s)
    (hrest : ∀ h ∈ s.system.handlers, AtRest h) (hqueue : s.system.server.taskManager.taskQueue = [])
    (hworkers : ∀ w ∈ s.workers, ∃ i ident, w.2 = .waiting i ∧
      s.system.handlers[i]? = some (.getTask (.select ident)))
    (hwait : s.system.solve = .wait) : s.system.server.done = true := by
  have hempty : s.system.server.taskManager.checkbook = ∅ := by
    refine eq_empty_of_keys (List.length_eq_zero_iff.mpr (List.eq_nil_iff_forall_not_mem.mpr ?_))
    intro x hx
    cases Fleet.placed_steady hr x (AList.mem_keys.mpr hx) with
    | queued task ht _ =>
        rw [hqueue] at ht
        exact List.not_mem_nil ht
    | loading hload =>
        rw [hwait] at hload
        exact List.not_mem_nil hload
    | handled h hh hid =>
        rw [(hrest h hh).free.2.2] at hid
        exact List.not_mem_nil hid
    | replied w hw hid =>
        obtain ⟨i, ident, hwaits, hi⟩ := hworkers w hw
        rw [hwaits, Worker.reply, hi] at hid
        exact List.not_mem_nil hid
    | worked w hw hid =>
        obtain ⟨i, ident, hwaits, -⟩ := hworkers w hw
        rw [hwaits] at hid
        exact List.not_mem_nil hid
  have hset : s.system.Settled :=
    ⟨by rw [hwait]; rfl, fun h hh => (hrest h hh).free.1, hempty⟩
  have hsys : Reaches System.step System.KnownAt (.init cfg wt cnf cubes) s.system :=
    (Fleet.steady_system hr).mono fun _ _ hg => hg.2
  rcases System.settled_alerted hcubes hsys hset with hdone | hwoken | ⟨h, hh, htest⟩
  · exact hdone
  · rw [hwait] at hwoken
    exact Bool.noConfusion hwoken
  · rw [(hrest h hh).free.2.1] at htest
    exact Bool.noConfusion htest

/-! ### Reaching the end -/

/-- The processes answer as told. -/
def Fleet.AnswersAs (ans : TaskPayload → String × ℚ × Bool) (s : Fleet) (act : Action) : Prop :=
  s.Answers (fun task r => (r.count, r.durationSec, r.timedOut) = ans task) act

/-- No call fails, and the processes answer as told. -/
def Fleet.Follows (ans : TaskPayload → String × ℚ × Bool) (s : Fleet) (act : Action) : Prop :=
  FailureFree act ∧ s.AnswersAs ans act

variable {ans : TaskPayload → String × ℚ × Bool}

theorem Fleet.Follows.steady {act : Action}
    (hans : ∀ task, (ans task).2.2 = true → task.literals.length < k) (h : s.Follows ans act) :
    s.Steady k act := by
  refine ⟨h.1, fun j count durationSec timedOut ident task hact hj hto => hans task ?_⟩
  have heq := h.2 j count durationSec timedOut ident task hact hj
  rw [← heq]
  exact hto

/-- A step that lowers what is left to do. -/
def Fleet.Advances (k : ℕ) (ans : TaskPayload → String × ℚ × Bool) (s : Fleet) : Prop :=
  ∃ act s', s.Follows ans act ∧ s.step act = some s' ∧ s'.effort k < s.effort k

/-- A handler that does not give up advances the fleet. -/
theorem Fleet.advances_handler (hans : ∀ task, (ans task).2.2 = true → task.literals.length < k)
    (hr : Reaches Fleet.step (Fleet.Steady k) (Fleet.init (.init cfg wt cnf cubes) idents) s)
    {h : Handler} (hmem : h ∈ s.system.handlers)
    (hh : ∃ c m' h', c ≠ .ctxDone ∧ Handler.step s.system.server h c = some (m', h') ∧
      ¬GivesUp s.system.server h h') : s.Advances k ans := by
  obtain ⟨c, m', h', hc, hstep, hgoes⟩ := hh
  obtain ⟨i, hi⟩ := List.getElem?_of_mem hmem
  have hmove := stepThread_enabled hi hstep
  have hfleet : s.step (.handler i c) = some { s with system :=
      { s.system with server := m', handlers := s.system.handlers.set i h' } } := by
    rw [Fleet.step, System.step, hmove]
    rfl
  have hfollows : s.Follows ans (.handler i c) := ⟨hc, by rintro _ _ _ _ _ _ ⟨⟩⟩
  refine ⟨.handler i c, _, hfollows, hfleet, ?_⟩
  rcases Fleet.effort_step hr (hfollows.steady hans) hfleet with ⟨hlt, -⟩ |
    ⟨i', c', g, g', hact, hg, hg', hgives, -⟩
  · exact hlt
  · obtain ⟨rfl, rfl⟩ := Action.handler.inj hact
    obtain rfl := Option.some.inj (hi.symm.trans hg)
    have hlt : i < s.system.handlers.length := (List.getElem?_eq_some_iff.mp hi).1
    have hset : (s.system.handlers.set i h')[i]? = some h' := by simp [hlt]
    obtain rfl := Option.some.inj (hset.symm.trans hg')
    exact absurd hgives hgoes

/-- A worker whose call has returned, or that makes none, advances the fleet. -/
theorem Fleet.advances_worker (hans : ∀ task, (ans task).2.2 = true → task.literals.length < k)
    (hr : Reaches Fleet.step (Fleet.Steady k) (Fleet.init (.init cfg wt cnf cubes) idents) s)
    {w : WorkerIdentity × Worker} (hw : w ∈ s.workers)
    (hret : ∀ i h, w.2.call = some i → s.system.handlers[i]? = some h → returned h = true) :
    s.Advances k ans := by
  have hattends := Fleet.attends (fun _ _ hg => hg.1.stays) hr w hw
  obtain ⟨e, t', w', he, hstep, hanswer⟩ := Worker.advances w.1 hattends hret ans
  obtain ⟨j, hj⟩ := List.getElem?_of_mem hw
  have hthread : Fleet.stepWorker s.system w e = some (t', w.1, w') := by
    rw [Fleet.stepWorker, hstep]
    rfl
  have hmove := stepThread_enabled hj hthread
  have hfleet : s.step (.worker j e) = some { system := t', workers := s.workers.set j (w.1, w') } := by
    rw [Fleet.step, hmove]
    rfl
  have hfollows : s.Follows ans (.worker j e) := by
    refine ⟨he, fun j' count durationSec timedOut ident task hact hj' => ?_⟩
    obtain ⟨rfl, rfl⟩ := Action.worker.inj hact
    obtain rfl := Option.some.inj (hj.symm.trans hj')
    exact hanswer task count durationSec timedOut rfl rfl
  refine ⟨.worker j e, _, hfollows, hfleet, ?_⟩
  rcases Fleet.effort_step hr (hfollows.steady hans) hfleet with ⟨hlt, -⟩ | ⟨i', c', g, g', hact, -⟩
  · exact hlt
  · cases hact

theorem Fleet.advances_solve (hans : ∀ task, (ans task).2.2 = true → task.literals.length < k)
    (hr : Reaches Fleet.step (Fleet.Steady k) (Fleet.init (.init cfg wt cnf cubes) idents) s)
    (hsolve : (Solve.step s.system.server s.system.solve).isSome = true) : s.Advances k ans := by
  obtain ⟨⟨m', p'⟩, hp⟩ := Option.isSome_iff_exists.mp hsolve
  have hfleet : s.step .solve =
      some { s with system := { s.system with server := m', solve := p' } } := by
    rw [Fleet.step, System.step, hp]
    rfl
  have hfollows : s.Follows ans .solve := ⟨trivial, by rintro _ _ _ _ _ _ ⟨⟩⟩
  refine ⟨.solve, _, hfollows, hfleet, ?_⟩
  rcases Fleet.effort_step hr (hfollows.steady hans) hfleet with ⟨hlt, -⟩ | ⟨i', c', g, g', hact, -⟩
  · exact hlt
  · cases hact

/-- **Somebody advances** until `Solve` has returned. -/
theorem Fleet.advances (hne : idents ≠ []) (hcubes : cubes ≠ []) (hcap : cfg.maxWorkers ≤ 0)
    (hfits : allowed k cubes < queueCapacity)
    (hans : ∀ task, (ans task).2.2 = true → task.literals.length < k)
    (hr : Reaches Fleet.step (Fleet.Steady k) (Fleet.init (.init cfg wt cnf cubes) idents) s) :
    (∃ count, s.system.solve = .returned count) ∨ s.Advances k ans := by
  have hattends := Fleet.attends (fun _ _ hg => hg.1.stays) hr
  have hroom := Fleet.queue_lt hfits hr
  have huncapped := Fleet.uncapped hcap hr
  cases hmu : s.system.server.taskManager.mu with
  | true =>
      obtain ⟨r, hostname, cube, hmem⟩ := System.held (Fleet.system_reachable hr) hmu
      exact .inr (Fleet.advances_handler hans hr hmem
        ⟨.go, _, _, by decide, rfl, by rintro ⟨⟩⟩)
  | false =>
      by_cases hstuck : ∀ h ∈ s.system.handlers, returned h = false →
          ∃ w, h = .getTask (.select w) ∧ s.system.server.taskManager.taskQueue = []
      · by_cases hidle : ∃ w ∈ s.workers, ∀ i h, w.2.call = some i →
            s.system.handlers[i]? = some h → returned h = true
        · obtain ⟨w, hw, hret⟩ := hidle
          exact .inr (Fleet.advances_worker hans hr hw hret)
        · -- every worker waits for a task, and there is none
          have hwaiting : ∀ w ∈ s.workers, (∃ i ident, w.2 = .waiting i ∧
              s.system.handlers[i]? = some (.getTask (.select ident))) ∧
                s.system.server.taskManager.taskQueue = [] := by
            intro w hw
            by_contra hnot
            refine hidle ⟨w, hw, fun i h hcall hi => ?_⟩
            by_contra hrun
            obtain ⟨ident, rfl, hqueue⟩ := hstuck h (List.mem_of_getElem? hi) (by simpa using hrun)
            refine hnot ⟨⟨i, ident, ?_, hi⟩, hqueue⟩
            have hself := hattends w hw
            generalize w.2 = v at hcall hself
            cases v with
            | waiting j => rw [Option.some.inj hcall]
            | awaiting j =>
                obtain rfl : j = i := Option.some.inj hcall
                obtain ⟨g, hg⟩ := hself
                cases Option.some.inj (hi.symm.trans hg)
            | _ => cases hcall
          obtain ⟨w, ws, hcons⟩ := List.exists_cons_of_ne_nil (Fleet.workers_ne_nil hne hr)
          have hqueue := (hwaiting w (hcons ▸ List.mem_cons_self)).2
          have hrest : ∀ h ∈ s.system.handlers, AtRest h := by
            intro h hh
            cases hret : returned h with
            | true => exact .inl hret
            | false => exact .inr ((hstuck h hh hret).imp fun _ heq => heq.1)
          rcases Solve.advances hmu hroom s.system.solve with hdone | ⟨hwait, hnone⟩ | hstep
          · exact .inl hdone
          · have hdone := Fleet.announced_at_rest hcubes hr hrest hqueue
              (fun w hw => (hwaiting w hw).1) hwait
            rw [hnone] at hdone
            exact Bool.noConfusion hdone
          · exact .inr (Fleet.advances_solve hans hr hstep)
      · push Not at hstuck
        obtain ⟨h, hmem, hrun, hready⟩ := hstuck
        exact .inr (Fleet.advances_handler hans hr hmem
          (Handler.advances hmu huncapped hroom hrun hready))

/-- **The end is always within reach.**  In every state of a run in which no call fails and no task of `k`
or more literals times out, with at least one worker, no cap and no more than 9999 tasks to come: whatever
the processes will answer, as long as they do not let such a task time out either, `Solve` can still be
made to return, without a failing call. -/
theorem Fleet.can_finish (hne : idents ≠ []) (hcubes : cubes ≠ []) (hcap : cfg.maxWorkers ≤ 0)
    (hfits : allowed k cubes < queueCapacity)
    (hans : ∀ task, (ans task).2.2 = true → task.literals.length < k)
    (hr : Reaches Fleet.step (Fleet.Steady k) (Fleet.init (.init cfg wt cnf cubes) idents) s) :
    ∃ s' count, Reaches Fleet.step (Fleet.Follows ans) s s' ∧ s'.system.solve = .returned count := by
  have hgoal : ∃ s', Reaches Fleet.step (Fleet.Follows ans) s s' ∧
      ∃ count, s'.system.solve = .returned count := by
    refine Reaches.exists_goal
      (Reaches Fleet.step (Fleet.Steady k) (Fleet.init (.init cfg wt cnf cubes) idents))
      (fun s => ∃ count, s.system.solve = .returned count) (Fleet.effort k) ?_ hr
    intro s hr
    refine (Fleet.advances hne hcubes hcap hfits hans hr).imp id ?_
    rintro ⟨act, s', hfollows, hs, hlt⟩
    exact ⟨act, s', hfollows, hs, hr.next (hfollows.steady hans) hs, hlt⟩
  obtain ⟨s', hreach, count, hcount⟩ := hgoal
  exact ⟨s', count, hreach, hcount⟩

end Runs

/-! ### A timeout after a wait -/

/-- `Steady`, evaluated. -/
def Fleet.steadyCheck (k : ℕ) (s : Fleet) : Action → Bool
  | .solve => true
  | .handler _ c => decide (c ≠ .ctxDone)
  | .worker _ .rpcError => false
  | .worker _ .giveUp => false
  | .worker _ .go => true
  | .worker j (.answer _ _ timedOut) =>
      match s.workers[j]? with
      | some (_, .solving task) => !timedOut || decide (task.literals.length < k)
      | _ => true

theorem Fleet.steady_of_check {s : Fleet} {act : Action} (h : s.steadyCheck k act = true) :
    s.Steady k act := by
  constructor
  · cases act with
    | solve => trivial
    | handler i c =>
        have hne : c ≠ .ctxDone := of_decide_eq_true h
        exact hne
    | worker j e =>
        cases e with
        | rpcError => exact Bool.noConfusion h
        | giveUp => exact Bool.noConfusion h
        | _ => exact ⟨by simp, by simp⟩
  · rintro j count durationSec timedOut ident task rfl hj (hto : timedOut = true)
    simpa [Fleet.steadyCheck, hj, hto] using h

/-- The worker waits in vain, then gets the first task, which times out. -/
def idleThenTimeout : List Action :=
  [[.worker 0 .go, .handler 0 .go, .handler 0 .go, .handler 0 .after5s, .handler 0 .go, .worker 0 .go],
    List.replicate 6 .solve, [.worker 0 .go, .worker 0 .go], List.replicate 6 (.handler 1 .go),
    [.worker 0 .go, .worker 0 (.answer "" 30 true), .worker 0 .go],
    List.replicate 4 (.handler 2 .go)].flatten

theorem Fleet.steady_idleThenTimeout :
    ∃ s, Takes Fleet.step (Fleet.Steady 7) oneWorkerInit idleThenTimeout.length s ∧ s.idles = 1 := by
  have hrun : (exec (fun s a => if Fleet.steadyCheck 7 s a then Fleet.step s a else none)
      oneWorkerInit idleThenTimeout).map Fleet.idles = some 1 := by
    decide +kernel
  obtain ⟨s, hs, hidles⟩ := Option.map_eq_some_iff.mp hrun
  exact ⟨s, Takes.of_exec_checked (fun _ _ => Fleet.steady_of_check) hs, hidles⟩

theorem Fleet.steps_bounded_idle : ∃ s : Fleet, s.idles = 1 ∧
    idleThenTimeout.length + 1531 ≤ 51 * 2 ^ 7 + 4 * [workerA].length + 7 * s.idles := by
  obtain ⟨s, htakes, hidles⟩ := Fleet.steady_idleThenTimeout
  exact ⟨s, hidles, Fleet.steps_bounded (by decide) htakes⟩

theorem Fleet.can_finish_idle : ∃ s : Fleet, s.idles = 1 ∧
    ∃ s' count, Reaches Fleet.step (Fleet.Follows fun _ => ("0", 0, false)) s s' ∧
      s'.system.solve = .returned count := by
  obtain ⟨s, htakes, hidles⟩ := Fleet.steady_idleThenTimeout
  refine ⟨s, hidles, Fleet.can_finish (k := 7) (by simp) (by decide) (by decide) ?_
    (fun _ hto => Bool.noConfusion hto) htakes.reaches⟩
  rw [allowed_initialCubes (by decide)]
  decide

end HydraSAT.Cluster
