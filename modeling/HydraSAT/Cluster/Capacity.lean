import HydraSAT.Cluster.Origin
import HydraSAT.Cluster.Progress
import HydraSAT.Master.Growth

/-!
# Timeouts against slots

Where nobody can move, every worker waits for a handler of its own that has accepted a timeout and holds
a task that finds no slot.  So there are as many timeouts as workers, and the outstanding tasks, which
are no more than the initial cubes and the timeouts together, fill the queue and the hands of these
handlers.

* `Fleet.FitsAt`: the timeout about to be accepted leaves a task too few for that;
* `Fleet.known`: the master's part of a run of the fleet submits no outstanding task before it is handed
  out;
* `Fleet.goes_on`: in every run whose timeouts fit, somebody can move as long as tasks are outstanding.
-/

namespace HydraSAT.Cluster

open HydraSAT.Lib HydraSAT.Master

/-! ### Timeouts that fit -/

/-- **The timeout about to be accepted fits.**  Counting it, the `n` initial cubes and the timeouts are
fewer than the slots of the queue and the workers, or the timeouts are fewer than the workers. -/
def Fleet.FitsAt (n : ℕ) (s : Fleet) (act : Action) : Prop :=
  ∀ i c r, act = .handler i c → s.system.handlers[i]? = some (.submitResult (.remove r)) →
    r.timedOut = true → r.taskId ∈ s.system.server.taskManager.checkbook →
    n + (s.system.server.timeouts + 1) < queueCapacity + s.workers.length ∨
      s.system.server.timeouts + 1 < s.workers.length

/-- The timeouts so far fit. -/
def Fleet.Fits (n : ℕ) (s : Fleet) : Prop :=
  n + s.system.server.timeouts < queueCapacity + s.workers.length ∨
    s.system.server.timeouts < s.workers.length

theorem Fleet.Fits.step {n : ℕ} {s s' : Fleet} {act : Action} (hfits : s.Fits n)
    (hg : s.FitsAt n act) (hs : s.step act = some s') : s'.Fits n := by
  have hsame : ∀ {t : Fleet}, t.workers.length = s.workers.length →
      t.system.server.timeouts = s.system.server.timeouts → t.Fits n := by
    intro t hworkers htimeouts
    rw [Fleet.Fits, hworkers, htimeouts]
    exact hfits
  cases Fleet.step_cases hs with
  | @solve t ht =>
      rcases System.timeouts_step ht with heq | ⟨i, c, r, hact, -⟩
      · exact hsame rfl heq
      · exact Master.Action.noConfusion hact
  | @handler pre h post server h' c heq hm =>
      rcases hm.timeouts with htimeouts | ⟨r, rfl, hto, hmem, htimeouts⟩
      · exact hsame rfl htimeouts
      · show n + server.timeouts < queueCapacity + s.workers.length ∨ server.timeouts < s.workers.length
        rw [htimeouts]
        exact hg pre.length c r rfl (by simp [heq]) hto hmem
  | @worker pre ident w post e t w' heq hm =>
      exact hsame (by simp [heq]) (congrArg MasterServer.timeouts hm.frame.1)

/-! ### Handlers at a send -/

theorem carried_of_sending {h : Handler} (hsend : sending h = true) : h.call.carried.length = 1 := by
  cases h with
  | getTask g => exact Bool.noConfusion hsend
  | submitResult g =>
      cases g with
      | enqueue r cube newCubes e =>
          cases e with
          | send task rest => rfl
          | _ => exact Bool.noConfusion hsend
      | _ => exact Bool.noConfusion hsend

theorem splitting_of_sending {h : Handler} (hsend : sending h = true) : h.splitting = true := by
  cases h with
  | getTask g => exact Bool.noConfusion hsend
  | submitResult g =>
      cases g with
      | enqueue r cube newCubes e => rfl
      | _ => exact Bool.noConfusion hsend

/-- Every handler at a send holds a task. -/
theorem countP_sending_le (hs : List Handler) :
    hs.countP sending ≤ (hs.flatMap fun h => h.call.carried.map Prod.fst).length := by
  induction hs with
  | nil => exact le_refl 0
  | cons h hs ih =>
      rw [List.countP_cons, List.flatMap_cons, List.length_append, List.length_map]
      cases hsend : sending h with
      | false =>
          rw [if_neg Bool.false_ne_true]
          omega
      | true =>
          rw [if_pos rfl, carried_of_sending hsend]
          omega

/-- Workers at a send wait for handlers of their own. -/
theorem Fleet.Sole.length_le {s : Fleet} (hsole : s.Sole)
    (hall : ∀ w ∈ s.workers, w.2.sends s.system.handlers = true) :
    s.workers.length ≤ s.system.handlers.countP sending := by
  have hcalls : ∀ w ∈ s.workers, ∃ i g, w.2.call = some i ∧ s.system.handlers[i]? = some g ∧
      sending g = true := by
    intro w hw
    obtain ⟨i, g, hi, hg, hsend⟩ := Worker.sends_cases (hall w hw)
    exact ⟨i, g, by rw [hi]; rfl, hg, hsend⟩
  have hlength : (s.workers.filterMap fun w => w.2.call).length = s.workers.length := by
    rw [List.length_filterMap_eq_countP, List.countP_eq_length]
    intro w hw
    obtain ⟨i, g, hi, -⟩ := hcalls w hw
    rw [hi]
    rfl
  rw [← hlength]
  refine length_le_countP hsole fun i hi => ?_
  obtain ⟨w, hw, hcall⟩ := List.mem_filterMap.mp hi
  obtain ⟨j, g, hj, hg, hsend⟩ := hcalls w hw
  obtain rfl := Option.some.inj (hcall.symm.trans hj)
  exact ⟨g, hg, hsend⟩

/-! ### Runs whose timeouts fit -/

section Runs

variable {cfg : HeuristicConfig} {wt : WorkerTracker} {cnf : CNFData} {cubes : List Cube}
  {idents : List WorkerIdentity} {guard : Fleet → Action → Prop} {s : Fleet}

/-- **Only tasks that were handed out are submitted.** -/
theorem Fleet.known (hr : Reaches Fleet.step guard (Fleet.init (.init cfg wt cnf cubes) idents) s) :
    Reaches System.step System.KnownAt (.init cfg wt cnf cubes) s.system := by
  refine Fleet.system_reaches hr (fun t act hfree i c r hact => absurd hact (hfree i c)) ?_
  intro s i c hr _ j c' r hact hj _
  obtain ⟨rfl, rfl⟩ := Master.Action.handler.inj hact
  have htraced := Fleet.traced (Q := fun _ _ => True) hr fun _ _ _ _ _ _ _ _ _ _ _ => trivial
  obtain ⟨task, ⟨hreply, hne⟩, hid, -⟩ := htraced.submitted r (List.mem_of_getElem? hj)
  rw [hid]
  refine Clients.mem_handedOut (Fleet.system_reachable hr) hreply ?_ hne
  exact List.mem_append_right _ (by rw [replied, if_neg hne]; exact List.mem_singleton_self _)

/-- **What a deadlock takes**: as many timeouts as workers, and tasks for all slots and all workers. -/
theorem Fleet.exceeds_of_not_room (hstays : ∀ s act, guard s act → Stays act)
    (hr : Reaches Fleet.step guard (Fleet.init (.init cfg wt cnf cubes) idents) s) (hroom : ¬s.Room) :
    queueCapacity + s.workers.length ≤ cubes.length + s.system.server.timeouts ∧
      s.workers.length ≤ s.system.server.timeouts := by
  obtain ⟨hfull, hnone⟩ := not_or.mp hroom
  have hall : ∀ w ∈ s.workers, w.2.sends s.system.handlers = true := by
    intro w hw
    by_contra hfree
    exact hnone ⟨w, hw, by simpa using hfree⟩
  have hknown := Fleet.known hr
  have hqueue : queueCapacity ≤ s.system.server.taskManager.taskQueue.length := not_lt.mp hfull
  have hworkers := (Fleet.sole hstays hr).length_le hall
  have hcarried := System.carried_le hknown
  have houtstanding := System.outstanding_le hknown
  have hsplitting := System.splitting_le hknown
  have htasks := countP_sending_le s.system.handlers
  have hbranch : s.system.handlers.countP sending ≤ s.system.handlers.countP Handler.splitting :=
    List.countP_mono_left fun h _ => splitting_of_sending
  rw [System.carriedIds, List.length_append, List.length_map] at hcarried
  omega

/-- **The master goes on**: with at least one worker, in every run in which nobody exits and every
timeout fits, a worker or a handler can move as long as tasks are outstanding. -/
theorem Fleet.goes_on (hne : idents ≠ [])
    (hr : Reaches Fleet.step (fun s act => Stays act ∧ s.FitsAt cubes.length act)
      (Fleet.init (.init cfg wt cnf cubes) idents) s) : s.GoesOn := by
  have hworkers := Fleet.workers_ne_nil hne hr
  have hfits : s.Fits cubes.length := by
    refine hr.invariant (Fleet.Fits cubes.length) (.inr ?_) fun s act s' hfits hg hs =>
      hfits.step hg.2 hs
    show 0 < (idents.map fun ident => (ident, Worker.polling)).length
    rw [List.length_map]
    exact List.length_pos_of_ne_nil hne
  have hroom : s.Room := by
    by_contra hnone
    obtain ⟨hslots, htimeouts⟩ := Fleet.exceeds_of_not_room (fun _ _ hg => hg.1) hr hnone
    rcases hfits with hlt | hlt
    · exact absurd hslots (not_le.mpr hlt)
    · exact absurd htimeouts (not_le.mpr hlt)
  exact fun _ => Fleet.moves_of_room (System.held (Fleet.system_reachable hr))
    (Fleet.attends (fun _ _ hg => hg.1) hr) hworkers hroom

end Runs

/-- `Stays` and `FitsAt`, evaluated. -/
def Fleet.fitsCheck (n : ℕ) (s : Fleet) : Action → Bool
  | .worker _ .giveUp => false
  | _ => decide (n + (s.system.server.timeouts + 1) < queueCapacity + s.workers.length)

theorem Fleet.fits_of_check {n : ℕ} {s : Fleet} {act : Action} (h : s.fitsCheck n act = true) :
    Stays act ∧ s.FitsAt n act := by
  unfold Fleet.fitsCheck at h
  split at h
  · exact Bool.noConfusion h
  · rename_i hstays
    exact ⟨fun j heq => hstays j heq, fun _ _ _ _ _ _ _ => .inl (of_decide_eq_true h)⟩

/-- The first task times out, and its handler gets to the first of its two sends. -/
def firstSend : List Action :=
  [firstTask, [.worker 0 (.answer "0" 30 true), .worker 0 .go], List.replicate 4 (.handler 1 .go),
    [.handler 1 (.visit (freqTable sevenVars.clauses))], List.replicate 3 (.handler 1 .go)].flatten

theorem Fleet.goes_on_firstSend :
    ∃ s : Fleet, s.system.server.timeouts = 1 ∧ s.system.server.taskManager.outstanding ≠ [] ∧
      s.Moves := by
  have hrun : (exec (fun s a => if Fleet.fitsCheck 64 s a then Fleet.step s a else none)
      oneWorkerInit firstSend).map (fun s =>
        (s.system.server.timeouts, s.system.server.taskManager.outstanding.isEmpty)) =
        some (1, false) := by
    decide +kernel
  obtain ⟨s, hs, hpair⟩ := Option.map_eq_some_iff.mp hrun
  obtain ⟨htimeouts, hne⟩ := Prod.mk.inj hpair
  have houtstanding : s.system.server.taskManager.outstanding ≠ [] := fun hnil => by
    rw [hnil] at hne
    exact Bool.noConfusion hne
  have hcubes : 64 = (initialCubes fun _ => freqTable sevenVars.clauses).length := by decide +kernel
  have hr := Reaches.of_exec_checked (fun _ _ => Fleet.fits_of_check) hs
  rw [hcubes] at hr
  exact ⟨s, htimeouts, houtstanding, Fleet.goes_on (by simp) hr houtstanding⟩

end HydraSAT.Cluster
