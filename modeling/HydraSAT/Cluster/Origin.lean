import HydraSAT.Cluster.Workers

/-!
# Where results come from

A worker submits results for tasks only that it was given.

* `Fleet.Handed`: the task was handed out; a reply that has been given stays where it is;
* `Fleet.traced`: in every run a result that reaches the master is an answer for a task that was handed
  out, and it has every property that the answers of the workers have;
* `Fleet.system_reaches`: the master's part of a guarded run is a guarded run of the master.
-/

namespace HydraSAT.Cluster

open HydraSAT.Lib HydraSAT.Master

/-! ### Answers -/

/-- What a worker submits is an answer for its task. -/
def Fleet.Answers (Q : TaskPayload → TaskResult → Prop) (s : Fleet) (act : Action) : Prop :=
  ∀ j count durationSec timedOut ident task, act = .worker j (.answer count durationSec timedOut) →
    s.workers[j]? = some (ident, .solving task) → Q task
      { taskId := task.taskId, workerId := ident.workerId, count := count, durationSec := durationSec
        timedOut := timedOut }

/-- The task was handed out. -/
def Fleet.Handed (s : Fleet) (task : TaskPayload) : Prop :=
  .getTask (.returned (some task)) ∈ s.system.handlers ∧ task.taskId ≠ -1

/-- The result is an answer for a task that was handed out. -/
def Fleet.AnswerOf (Q : TaskPayload → TaskResult → Prop) (s : Fleet) (r : TaskResult) : Prop :=
  ∃ task, s.Handed task ∧ r.taskId = task.taskId ∧ Q task r

/-- What workers solve was handed out, and what they submit are answers. -/
structure Fleet.Traced (Q : TaskPayload → TaskResult → Prop) (s : Fleet) : Prop where
  solving : ∀ w ∈ s.workers, ∀ task, w.2 = .solving task → s.Handed task
  submitting : ∀ w ∈ s.workers, ∀ r, w.2 = .submitting r → s.AnswerOf Q r
  submitted : ∀ r, .submitResult (.remove r) ∈ s.system.handlers → s.AnswerOf Q r

section Steps

variable {Q : TaskPayload → TaskResult → Prop} {s s' : Fleet} {act : Action} {task : TaskPayload}
  {r : TaskResult}

/-- A reply stays where it is. -/
theorem Fleet.Handed.step (h : s.Handed task) (hs : s.step act = some s') : s'.Handed task := by
  obtain ⟨hmem, hne⟩ := h
  refine ⟨?_, hne⟩
  cases Fleet.step_cases hs with
  | solve ht =>
      cases System.move_of_step ht
      exact hmem
  | handler c heq hm =>
      rw [heq] at hmem
      refine mem_exchange hmem ?_
      rintro rfl
      cases hm with
      | getTask hg => cases hg
  | worker heq hw =>
      cases hw with
      | call => exact List.mem_append_left _ hmem
      | submit r => exact List.mem_append_left _ hmem
      | _ => exact hmem

theorem Fleet.AnswerOf.step (h : s.AnswerOf Q r) (hs : s.step act = some s') : s'.AnswerOf Q r :=
  h.imp fun _ h => ⟨h.1.step hs, h.2⟩

/-- Only a worker starts a `SubmitResult`. -/
theorem Fleet.submitted_step (hs : s.step act = some s')
    (hr : .submitResult (.remove r) ∈ s'.system.handlers) :
    .submitResult (.remove r) ∈ s.system.handlers ∨ ∃ w ∈ s.workers, w.2 = .submitting r := by
  cases Fleet.step_cases hs with
  | solve ht =>
      cases System.move_of_step ht
      exact .inl hr
  | @handler pre h post server h' c heq hm =>
      refine .inl ?_
      rw [heq]
      refine mem_exchange (t := h') hr ?_
      rintro rfl
      cases hm with
      | submitResult hm =>
          generalize hg : SubmitResult.remove r = g at hm
          cases hm <;> cases hg
  | @worker pre ident w post e t w' heq hw =>
      cases hw with
      | call => exact .inl ((List.mem_append.mp hr).resolve_right (by simp))
      | submit r' =>
          refine (List.mem_append.mp hr).imp id fun hr => ⟨(ident, .submitting r'), by simp [heq], ?_⟩
          cases List.mem_singleton.mp hr
          rfl
      | _ => exact .inl hr

/-- A worker starts to solve what it was given, and submits its answer. -/
theorem Fleet.workers_step (hs : s.step act = some s') {v : WorkerIdentity × Worker}
    (hv : v ∈ s'.workers) : v ∈ s.workers ∨
      ((∀ task, v.2 = .solving task → s.Handed task) ∧ ∀ r, v.2 = .submitting r →
        ∃ j count durationSec timedOut task, act = .worker j (.answer count durationSec timedOut) ∧
          s.workers[j]? = some (v.1, .solving task) ∧
          r = { taskId := task.taskId, workerId := v.1.workerId, count := count
                durationSec := durationSec, timedOut := timedOut }) := by
  cases Fleet.step_cases hs with
  | solve _ => exact .inl hv
  | handler c _ _ => exact .inl hv
  | @worker pre ident w post e t w' heq hw =>
      rcases List.mem_append.mp hv with hv | hv
      · exact .inl (heq ▸ List.mem_append_left _ hv)
      rcases List.mem_cons.mp hv with rfl | hv
      · refine .inr ?_
        cases hw with
        | receive i task hi hne =>
            refine ⟨fun task' heq' => ?_, fun r heq' => nomatch heq'⟩
            cases heq'
            exact ⟨List.mem_of_getElem? hi, hne⟩
        | solve task count durationSec timedOut =>
            refine ⟨fun task' heq' => (nomatch heq'), fun r heq' => ?_⟩
            cases heq'
            exact ⟨_, count, durationSec, timedOut, task, rfl, by simp [heq], rfl⟩
        | _ => exact ⟨fun _ heq' => (nomatch heq'), fun _ heq' => nomatch heq'⟩
      · exact .inl (heq ▸ List.mem_append_right _ (List.mem_cons_of_mem _ hv))

theorem Fleet.Traced.step (h : s.Traced Q) (hq : s.Answers Q act) (hs : s.step act = some s') :
    s'.Traced Q := by
  refine ⟨fun v hv task htask => ?_, fun v hv r hr => ?_, fun r hr => ?_⟩
  · rcases Fleet.workers_step hs hv with hv | ⟨hnew, -⟩
    · exact (h.solving v hv task htask).step hs
    · exact (hnew task htask).step hs
  · rcases Fleet.workers_step hs hv with hv | ⟨-, hnew⟩
    · exact (h.submitting v hv r hr).step hs
    · obtain ⟨j, count, durationSec, timedOut, task, rfl, hj, rfl⟩ := hnew r hr
      have hhanded := h.solving _ (List.mem_of_getElem? hj) task rfl
      exact ⟨task, hhanded.step hs, rfl, hq j count durationSec timedOut v.1 task rfl hj⟩
  · rcases Fleet.submitted_step hs hr with hr | ⟨w, hw, hr⟩
    · exact (h.submitted r hr).step hs
    · exact (h.submitting w hw r hr).step hs

end Steps

/-! ### The master of the fleet -/

section Runs

variable {guard : Fleet → Action → Prop} {cfg : HeuristicConfig} {wt : WorkerTracker} {cnf : CNFData}
  {cubes : List Cube} {idents : List WorkerIdentity} {s : Fleet}
  {Q : TaskPayload → TaskResult → Prop}

theorem Fleet.traced (hr : Reaches Fleet.step guard (Fleet.init (.init cfg wt cnf cubes) idents) s)
    (hq : ∀ s act, guard s act → s.Answers Q act) : s.Traced Q := by
  refine hr.invariant (Fleet.Traced Q) ?_ fun s act s' h hg hs => h.step (hq s act hg) hs
  have hpolling : ∀ w ∈ (Fleet.init (.init cfg wt cnf cubes) idents).workers, w.2 = .polling := by
    intro w hw
    obtain ⟨ident, -, rfl⟩ := List.mem_map.mp hw
    rfl
  refine ⟨fun w hw task htask => ?_, fun w hw r hr => ?_, fun r hr => absurd hr List.not_mem_nil⟩
  · rw [hpolling w hw] at htask
    exact nomatch htask
  · rw [hpolling w hw] at hr
    exact nomatch hr

/-- **The master's part of a guarded run** is one of the master, with a guard that its handlers satisfy. -/
theorem Fleet.system_reaches {g : System → Master.Action → Prop}
    (hr : Reaches Fleet.step guard (Fleet.init (.init cfg wt cnf cubes) idents) s)
    (hfree : ∀ t act, (∀ i c, act ≠ .handler i c) → g t act)
    (hg : ∀ s i c, Reaches Fleet.step guard (Fleet.init (.init cfg wt cnf cubes) idents) s →
      guard s (.handler i c) → g s.system (.handler i c)) :
    Reaches System.step g (.init cfg wt cnf cubes) s.system := by
  refine hr.invariant' (fun s => Reaches System.step g (.init cfg wt cnf cubes) s.system) .start ?_
  intro s act s' hr h hguard hs
  cases act with
  | solve =>
      obtain ⟨t, ht, rfl⟩ := Option.map_eq_some_iff.mp hs
      exact h.next (hfree _ .solve fun _ _ => Master.Action.noConfusion) ht
  | handler i c =>
      obtain ⟨t, ht, rfl⟩ := Option.map_eq_some_iff.mp hs
      exact h.next (hg s i c hr hguard) ht
  | worker j e =>
      cases Fleet.step_cases hs with
      | worker heq hw =>
          cases hw with
          | call => exact h.next (hfree _ (.getTask _) fun _ _ => Master.Action.noConfusion) rfl
          | submit r => exact h.next (hfree _ (.submitResult r) fun _ _ => Master.Action.noConfusion) rfl
          | _ => exact h

end Runs

end HydraSAT.Cluster
