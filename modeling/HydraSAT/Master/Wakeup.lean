import HydraSAT.Master.Bookkeeping

/-!
# Completion is never missed

`IsEmpty` reads two variables, and each handler calls it once, at its end.  The last call is never
too early: the handler that releases the last task calls `IsEmpty` after that, and no handler or
`Solve` can be midway then without a task being left in the checkbook.

* `System.Alerted`: the announcement is made, or a handler that has booked its task will still call
  `IsEmpty`;
* `System.settled_alerted`: whenever nothing is outstanding or on its way, the master is alerted;
* `System.completion_sent`: so that `Solve` is woken once all handlers have returned.
-/

namespace HydraSAT.Master

open HydraSAT.Lib

/-- The handler has booked its task and not finished its `IsEmpty`. -/
def Handler.willTest : Handler → Bool
  | .submitResult (.enqueue _ _ _ (.loop [])) => true
  | .submitResult (.readTimeout _) => true
  | .submitResult (.recordCompletion _ _) => true
  | .submitResult (.rereadTimeout _ _) => true
  | .submitResult (.broadcast _ _) => true
  | .submitResult (.countCompleted _) => true
  | .submitResult (.readActive _) => true
  | .submitResult (.readQueue _) => true
  | .submitResult (.announce _) => true
  | _ => false

/-- The handler has returned. -/
def Handler.isReturned : Handler → Bool
  | .getTask (.returned _) => true
  | .submitResult (.returned _) => true
  | _ => false

/-- A value is in the slot of the done channel, `Solve` has received it, or a handler will test. -/
def System.Alerted (s : System) : Prop :=
  s.server.done = true ∨ s.solve.woken = true ∨ ∃ h ∈ s.handlers, h.willTest = true

/-- **The last test succeeds.**  A handler that tests when nothing is active or queued goes on to
announce. -/
theorem HandlerMove.tests {s s' : MasterServer} {h h' : Handler} (hm : HandlerMove s h s' h')
    (htest : h.willTest = true) (hactive : s.taskManager.activeTasks = 0)
    (hqueue : s.taskManager.taskQueue = []) : h'.willTest = true ∨ s'.done = true := by
  cases hm with
  | getTask hg => exact Bool.noConfusion htest
  | submitResult hm =>
      cases hm with
      | enqueue r cube newCubes e tm' e' he =>
          cases e with
          | loop rest =>
              cases rest with
              | nil => exact absurd he (by simp [enqueueStep])
              | cons c rest => exact Bool.noConfusion htest
          | _ => exact Bool.noConfusion htest
      | someActive r hsome =>
          have hzero : s.taskManager.isEmptyActive = true := by simp [TaskManager.isEmptyActive, hactive]
          exact Bool.noConfusion (hzero.symm.trans hsome)
      | someQueued r hsome =>
          have hnil : s.taskManager.isEmptyQueue = true := by simp [TaskManager.isEmptyQueue, hqueue]
          exact Bool.noConfusion (hnil.symm.trans hsome)
      | announce r => exact .inr rfl
      | enqueued r cube newCubes => exact .inl rfl
      | recordCompletion r old => exact .inl rfl
      | readTimeout r => exact .inl rfl
      | changed r old _ => exact .inl rfl
      | unchanged r old _ => exact .inl rfl
      | broadcast r new => exact .inl rfl
      | countCompleted r => exact .inl rfl
      | noneActive r _ => exact .inl rfl
      | noneQueued r _ => exact .inl rfl
      | _ => exact Bool.noConfusion htest

/-- **Whoever settles the master will test.**  A move after which the checkbook and the queue are
empty and the handler is out of its window was no change of this, or leaves a test to be made. -/
theorem HandlerMove.settles {s s' : MasterServer} {h h' : Handler} (hm : HandlerMove s h s' h')
    (hwindow : h'.inWindow = false) (hempty : s'.taskManager.checkbook = ∅)
    (hqueue : s'.taskManager.taskQueue = []) :
    h'.willTest = true ∨ (h.inWindow = false ∧ s.taskManager.checkbook = ∅) := by
  cases hm with
  | getTask hg =>
      refine .inr ⟨rfl, ?_⟩
      cases hg with
      | record w task _ =>
          refine eq_empty_of_keys (List.length_eq_zero_iff.mpr (List.eq_nil_iff_forall_not_mem.mpr ?_))
          intro x hx
          have hmem : x ∈ (s.taskManager.recordAssignment task.taskId w.hostname).checkbook :=
            mem_recordAssignment.mpr (AList.mem_keys.mpr hx)
          have hnone : (s.taskManager.recordAssignment task.taskId w.hostname).checkbook = ∅ := hempty
          rw [hnone] at hmem
          exact AList.notMem_empty x hmem
      | _ => exact hempty
  | submitResult hm =>
      cases hm with
      | enqueue r cube newCubes e tm' e' he =>
          -- a call that finishes has just put a task on the queue
          have hfin : e' = .loop [] := EnqueueCubes.eq_of_finished hwindow
          rcases enqueueStep_cases he with ⟨_, _, -, -, heq⟩ | ⟨_, _, _, -, -, -, heq⟩ |
            ⟨_, _, _, -, -, heq⟩ | ⟨task, rest, -, -, rfl, -⟩
          · exact EnqueueCubes.noConfusion (heq.symm.trans hfin)
          · exact EnqueueCubes.noConfusion (heq.symm.trans hfin)
          · exact EnqueueCubes.noConfusion (heq.symm.trans hfin)
          · exact absurd hqueue (List.append_ne_nil_of_right_ne_nil _ (List.cons_ne_nil _ _))
      | accept r entry _ _ => exact Bool.noConfusion hwindow
      | release r hostname cube => exact Bool.noConfusion hwindow
      | timedOut r hostname cube _ => exact Bool.noConfusion hwindow
      | parsed r hostname cube val _ _ => exact Bool.noConfusion hwindow
      | countTimeout r cube => exact Bool.noConfusion hwindow
      | split r cube entries _ => exact Bool.noConfusion hwindow
      | unparsed r hostname cube _ _ => exact .inl rfl
      | addMeasured r cube val _ => exact .inl rfl
      | addUnmeasured r cube val _ => exact .inl rfl
      | enqueued r cube newCubes => exact .inl rfl
      | _ => exact .inr ⟨rfl, hempty⟩

/-- A value in the slot stays until `Solve` takes it. -/
theorem HandlerMove.done_stays {s s' : MasterServer} {h h' : Handler} (hm : HandlerMove s h s' h')
    (hdone : s.done = true) : s'.done = true := by
  cases hm with
  | getTask hg => cases hg <;> exact hdone
  | submitResult hm =>
      cases hm with
      | announce r => rfl
      | _ => exact hdone

theorem SolveMove.alerted {s s' : MasterServer} {p p' : Solve} (hm : SolveMove s p s' p')
    (h : s.done = true ∨ p.woken = true) : s'.done = true ∨ p'.woken = true := by
  cases hm with
  | receive _ => exact .inr rfl
  | logResult => exact .inr rfl
  | _ => exact h.imp id fun hwoken => Bool.noConfusion hwoken

/-- `Solve` has a cube to begin with. -/
def Solve.HasCubes : Solve → Prop
  | .broadcast cubes => cubes ≠ []
  | .countTotal cubes => cubes ≠ []
  | _ => True

/-- `Solve` settles nothing: the last cube it sends is on the queue. -/
theorem SolveMove.settles {s s' : MasterServer} {p p' : Solve} (hm : SolveMove s p s' p')
    (hcubes : p.HasCubes) (hloaded : p'.enqueues = false) (hqueue : s'.taskManager.taskQueue = []) :
    p.enqueues = false ∧ s'.taskManager.checkbook = s.taskManager.checkbook := by
  cases hm with
  | broadcast cubes => exact Bool.noConfusion hloaded
  | countTotal cubes =>
      have hfin : EnqueueCubes.loop cubes = .loop [] := EnqueueCubes.eq_of_finished hloaded
      exact absurd (EnqueueCubes.loop.inj hfin) hcubes
  | load e tm' e' he =>
      have hfin : e' = .loop [] := EnqueueCubes.eq_of_finished hloaded
      rcases enqueueStep_cases he with ⟨_, _, -, -, heq⟩ | ⟨_, _, _, -, -, -, heq⟩ |
        ⟨_, _, _, -, -, heq⟩ | ⟨task, rest, -, -, rfl, -⟩
      · exact EnqueueCubes.noConfusion (heq.symm.trans hfin)
      · exact EnqueueCubes.noConfusion (heq.symm.trans hfin)
      · exact EnqueueCubes.noConfusion (heq.symm.trans hfin)
      · exact absurd hqueue (List.append_ne_nil_of_right_ne_nil _ (List.cons_ne_nil _ _))
  | _ => exact ⟨rfl, rfl⟩

section Runs

variable {cfg : HeuristicConfig} {workers : WorkerTracker} {cnf : CNFData} {cubes : List Cube}
  {guard : System → Action → Prop} {s : System}

theorem System.hasCubes (hcubes : cubes ≠ [])
    (hr : Reaches System.step guard (.init cfg workers cnf cubes) s) : s.solve.HasCubes := by
  refine hr.invariant (fun s => s.solve.HasCubes) hcubes ?_
  intro s act s' h _ hs
  cases System.move_of_step hs with
  | solve hp =>
      show Solve.HasCubes _
      generalize s.solve = q at hp h
      cases hp with
      | broadcast cubes => exact h
      | _ => trivial
  | getTask w => exact h
  | submitResult r => exact h
  | handler c heq hm => exact h

/-- A settled master has nothing active and nothing queued. -/
theorem System.Settled.drained_counters (hset : s.Settled)
    (hr : Reaches System.step System.KnownAt (.init cfg workers cnf cubes) s) :
    s.server.taskManager.activeTasks = 0 ∧ s.server.taskManager.taskQueue = [] := by
  constructor
  · have hbal := System.active_balance hr
    rw [System.total, Solve.surplus_of_loaded hset.loaded,
      sum_handlers_zero fun h hh => Handler.surplus_of_quiet (hset.quiet h hh), TaskManager.surplus,
      hset.empty] at hbal
    refine (eq_int32_of_cast (y := 0) (System.registers hr).2 ?_).trans int32_zero
    simpa using hbal
  · refine List.eq_nil_iff_forall_not_mem.mpr fun task ht => ?_
    have hmem := (System.carried_listed hr (.inl (List.mem_map_of_mem ht))).mem
    rw [hset.empty] at hmem
    exact AList.notMem_empty _ hmem

/-- **Whenever nothing is outstanding or on its way, the master is alerted.** -/
theorem System.settled_alerted (hcubes : cubes ≠ [])
    (hr : Reaches System.step System.KnownAt (.init cfg workers cnf cubes) s) (hset : s.Settled) :
    s.Alerted := by
  refine hr.invariant' (fun s => s.Settled → s.Alerted) (fun h => Bool.noConfusion h.loaded) ?_ hset
  intro s act s' hr ih hg hs hset'
  have hqueue' := (hset'.drained_counters (hr.next hg hs)).2
  by_cases hset : s.Settled
  · -- the witness stays, or announces
    obtain ⟨hactive, hqueue⟩ := hset.drained_counters hr
    cases System.move_of_step hs with
    | solve hp =>
        rcases ih hset with hdone | hwoken | htest
        · exact (hp.alerted (.inl hdone)).imp id .inl
        · exact (hp.alerted (.inr hwoken)).imp id .inl
        · exact .inr (.inr htest)
    | getTask w =>
        exact (ih hset).imp id (Or.imp id fun ⟨h, hh, ht⟩ => ⟨h, List.mem_append_left _ hh, ht⟩)
    | submitResult r =>
        exact (ih hset).imp id (Or.imp id fun ⟨h, hh, ht⟩ => ⟨h, List.mem_append_left _ hh, ht⟩)
    | @handler pre h post server h' c heq hm =>
        rcases ih hset with hdone | hwoken | ⟨u, hu, htest⟩
        · exact .inl (hm.done_stays hdone)
        · exact .inr (.inl hwoken)
        · rw [heq] at hu
          by_cases hmover : u = h
          · rcases hm.tests (hmover ▸ htest) hactive hqueue with htest' | hdone'
            · exact .inr (.inr ⟨h', List.mem_append_right _ List.mem_cons_self, htest'⟩)
            · exact .inl hdone'
          · exact .inr (.inr ⟨u, mem_exchange hu hmover, htest⟩)
  · -- the step has settled the master
    cases System.move_of_step hs with
    | solve hp =>
        obtain ⟨hloaded, hsame⟩ := hp.settles (System.hasCubes hcubes hr) hset'.loaded hqueue'
        exact absurd ⟨hloaded, hset'.quiet, hsame.symm.trans hset'.empty⟩ hset
    | getTask w =>
        exact absurd ⟨hset'.loaded, fun h hh => hset'.quiet h (List.mem_append_left _ hh),
          hset'.empty⟩ hset
    | submitResult r =>
        exact absurd ⟨hset'.loaded, fun h hh => hset'.quiet h (List.mem_append_left _ hh),
          hset'.empty⟩ hset
    | @handler pre h post server h' c heq hm =>
        have hself : h' ∈ pre ++ h' :: post := List.mem_append_right _ List.mem_cons_self
        rcases hm.settles (hset'.quiet h' hself) hset'.empty hqueue' with htest | ⟨hwindow, hempty⟩
        · exact .inr (.inr ⟨h', hself, htest⟩)
        · refine absurd ⟨hset'.loaded, ?_, hempty⟩ hset
          rw [heq]
          exact forall_exchange hset'.quiet hwindow

/-- A handler that has returned is in no window and will not test. -/
theorem Handler.done_of_returned {h : Handler} (hret : h.isReturned = true) :
    h.inWindow = false ∧ h.willTest = false := by
  cases h with
  | getTask h => exact ⟨rfl, rfl⟩
  | submitResult h =>
      cases h with
      | returned ok => exact ⟨rfl, rfl⟩
      | _ => exact Bool.noConfusion hret

/-- **Completion is never missed.**  With at least one initial cube, once the initial load has
finished, the checkbook is empty and every handler has returned, a value has been sent on the done
channel: it is in the slot, or `Solve` has received it. -/
theorem System.completion_sent (hcubes : cubes ≠ [])
    (hr : Reaches System.step System.KnownAt (.init cfg workers cnf cubes) s)
    (hloaded : s.solve.enqueues = false) (hempty : s.server.taskManager.checkbook = ∅)
    (hreturned : ∀ h ∈ s.handlers, h.isReturned = true) :
    s.server.done = true ∨ s.solve.woken = true := by
  have hset : s.Settled :=
    ⟨hloaded, fun h hh => (Handler.done_of_returned (hreturned h hh)).1, hempty⟩
  rcases System.settled_alerted hcubes hr hset with hdone | hwoken | ⟨h, hh, htest⟩
  · exact .inl hdone
  · exact .inr hwoken
  · rw [(Handler.done_of_returned (hreturned h hh)).2] at htest
    exact Bool.noConfusion htest

end Runs

/-- Two cubes, solved at the same time; the second handler has removed its task when the first one
tests. -/
def twoAtOnce : List Action :=
  [List.replicate 11 .solve, [.getTask workerA, .getTask workerA],
    List.replicate 6 (.handler 0 .go), List.replicate 6 (.handler 1 .go),
    [.submitResult (answer 1 "2"), .submitResult (answer 2 "3")],
    List.replicate 5 (.handler 2 .go), List.replicate 5 (.handler 3 .go),
    List.replicate 3 (.handler 2 .go), List.replicate 3 (.handler 3 .go)].flatten

theorem System.completion_sent_twoAtOnce :
    ∃ s : System, s.handlers.length = 4 ∧ (s.server.done = true ∨ s.solve.woken = true) := by
  have hrun : (exec (fun s a => if System.knownCheck s a then System.step s a else none)
      (.init defaultConfig .new sevenVars [[1], [-1]]) twoAtOnce).map (fun s =>
        (s.handlers.length, s.solve.enqueues, s.server.taskManager.checkbook.keys.length,
          s.handlers.all Handler.isReturned)) = some (4, false, 0, true) := by
    decide +kernel
  obtain ⟨s, hs, hquad⟩ := Option.map_eq_some_iff.mp hrun
  obtain ⟨hlen, htriple⟩ := Prod.mk.inj hquad
  obtain ⟨hloaded, hpair⟩ := Prod.mk.inj htriple
  obtain ⟨hkeys, hreturned⟩ := Prod.mk.inj hpair
  have hr := Reaches.of_exec_checked (fun _ _ => System.known_of_check) hs
  exact ⟨s, hlen, System.completion_sent (List.cons_ne_nil _ _) hr hloaded (eq_empty_of_keys hkeys)
    (List.all_eq_true.mp hreturned)⟩

end HydraSAT.Master
