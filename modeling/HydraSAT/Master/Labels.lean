import HydraSAT.Master.Bookkeeping
import HydraSAT.Master.Outcome

/-!
# The tasks behind the ids

A result names a task by its id only.  The id has been given to one cube, and whatever has the id, in
the checkbook, on the queue, in a handler or in a reply, has that cube; and every payload has the
formula that is being solved.

* `System.Labels`: what has an id, with the cube;
* `System.labelled`: an id has one cube, in all of a run;
* `System.labels_all`: the cubes of ids are cubes of the problem;
* `System.genuine`: the payloads are those of the formula.
-/

namespace HydraSAT.Master

open HydraSAT.Lib

/-! ### Labels -/

/-- The tasks in a `GetTask` handler or in its reply. -/
def GetTask.tasks : GetTask → List TaskPayload
  | .stamp _ task => [task]
  | .record _ task => [task]
  | .assign _ task => [task]
  | .returned (some task) => if task.taskId = -1 then [] else [task]
  | _ => []

/-- The payload a running `EnqueueCubes` is about to send. -/
def EnqueueCubes.tasks : EnqueueCubes → List TaskPayload
  | .send task _ => [task]
  | _ => []

/-- The payloads of a handler. -/
def Handler.tasks : Handler → List TaskPayload
  | .getTask h => h.tasks
  | .submitResult h => h.call.tasks

/-- Id and cube of a payload. -/
def TaskPayload.label (task : TaskPayload) : ℤ × Cube := (task.taskId, task.literals)

/-- The ids and cubes of a handler. -/
def Handler.labels : Handler → List (ℤ × Cube)
  | .getTask h => h.tasks.map TaskPayload.label
  | .submitResult h => h.call.carried

/-- The ids and cubes of the checkbook and the queue. -/
def TaskManager.Labels (tm : TaskManager) (p : ℤ × Cube) : Prop := tm.Lists p.1 p.2 ∨ p ∈ tm.queued

/-- The ids and cubes of the system. -/
def System.Labels (s : System) (p : ℤ × Cube) : Prop :=
  s.server.taskManager.Labels p ∨ p ∈ s.solve.call.carried ∨ ∃ h ∈ s.handlers, p ∈ h.labels

theorem TaskManager.Lists.of_deleteTask {tm : TaskManager} {id x : ℤ} {c : Cube}
    (h : (tm.deleteTask id).Lists x c) : tm.Lists x c := by
  unfold TaskManager.deleteTask at h
  split at h
  · obtain ⟨entry, hl, hc⟩ := h
    by_cases hx : x = id
    · subst hx
      exact nomatch (AList.lookup_erase x _).symm.trans hl
    · exact ⟨entry, (AList.lookup_erase_ne hx).symm.trans hl, hc⟩
  · exact h

theorem TaskManager.Lists.of_recordAssignment {tm : TaskManager} {id x : ℤ} {hostname : String}
    {c : Cube} (h : (tm.recordAssignment id hostname).Lists x c) : tm.Lists x c := by
  unfold TaskManager.recordAssignment at h
  split at h
  · rename_i e he
    obtain ⟨entry, hl, hc⟩ := h
    by_cases hx : x = id
    · subst hx
      have hentry := Option.some.inj ((AList.lookup_insert _).symm.trans hl)
      exact ⟨e, he, by rw [← hc, ← hentry]⟩
    · exact ⟨entry, (AList.lookup_insert_ne hx).symm.trans hl, hc⟩
  · exact h

/-- **Only `makePayload` gives out labels**, each for an id it has drawn. -/
theorem enqueueStep_labels {tm tm' : TaskManager} {e e' : EnqueueCubes} {p : ℤ × Cube}
    (h : enqueueStep tm e = some (tm', e')) (hp : tm'.Labels p ∨ p ∈ e'.carried) :
    (tm.Labels p ∨ p ∈ e.carried) ∨ (∃ rest, e = .insert p.1 p.2 rest) ∧ tm'.Lists p.1 p.2 := by
  rcases enqueueStep_cases h with ⟨cube, rest, rfl, rfl, rfl⟩ | ⟨id, cube, rest, rfl, -, rfl, rfl⟩ |
    ⟨id, cube, rest, rfl, rfl, rfl⟩ | ⟨task, rest, rfl, -, rfl, rfl⟩
  · exact .inl hp
  · rcases hp with (⟨entry, hl, hc⟩ | hp) | hp
    · by_cases hx : p.1 = id
      · rw [hx] at hl
        have hentry := Option.some.inj ((AList.lookup_insert _).symm.trans hl)
        have hcube : cube = p.2 := by rw [← hc, ← hentry]
        subst hx hcube
        exact .inr ⟨⟨rest, rfl⟩, tm.lists_enter _ _⟩
      · exact .inl (.inl (.inl ⟨entry, (AList.lookup_insert_ne hx).symm.trans hl, hc⟩))
    · exact .inl (.inl (.inr hp))
    · rw [List.mem_singleton.mp hp]
      exact .inr ⟨⟨rest, rfl⟩, tm.lists_enter _ _⟩
  · exact .inl hp
  · refine .inl ?_
    rcases hp with (hp | hp) | hp
    · exact .inl (.inl hp)
    · have hqueued : (tm.push task).queued = tm.queued ++ [(task.taskId, task.literals)] :=
        List.map_append
      rw [hqueued] at hp
      exact (List.mem_append.mp hp).imp .inr id
    · exact absurd hp List.not_mem_nil

/-- A handler gives out a label only as `makePayload`. -/
theorem HandlerMove.labels {s s' : MasterServer} {h h' : Handler} (hm : HandlerMove s h s' h')
    {p : ℤ × Cube} (hp : s'.taskManager.Labels p ∨ p ∈ h'.labels) :
    (s.taskManager.Labels p ∨ p ∈ h.labels) ∨
      (∃ rest, h.call = .insert p.1 p.2 rest) ∧ s'.taskManager.Lists p.1 p.2 := by
  cases hm with
  | getTask hg =>
      refine .inl ?_
      cases hg with
      | dequeue w task rest hq =>
          have hqueued : s.taskManager.queued = task.label :: rest.map TaskPayload.label := by
            show s.taskManager.taskQueue.map _ = _
            rw [hq]
            rfl
          refine .inl ?_
          rcases hp with (hp | hp) | hp
          · exact .inl hp
          · exact .inr (by rw [hqueued]; exact List.mem_cons_of_mem _ hp)
          · refine .inr ?_
            rw [hqueued, List.mem_singleton.mp hp]
            exact List.mem_cons_self
      | record w task _ =>
          refine hp.imp (Or.imp TaskManager.Lists.of_recordAssignment fun hp => ?_) id
          show p ∈ s.taskManager.taskQueue.map _
          rw [← s.taskManager.taskQueue_recordAssignment task.taskId w.hostname]
          exact hp
      | assign w task =>
          refine hp.imp id fun hp => ?_
          simp only [Handler.labels, GetTask.tasks] at hp ⊢
          split at hp
          · exact absurd hp List.not_mem_nil
          · exact hp
      | _ => exact hp.imp id fun hp => hp
  | submitResult hm =>
      cases hm with
      | accept r entry _ _ =>
          refine .inl (hp.imp (Or.imp TaskManager.Lists.of_deleteTask fun hp => ?_) id)
          show p ∈ s.taskManager.taskQueue.map _
          rw [← s.taskManager.taskQueue_deleteTask r.taskId]
          exact hp
      | enqueue r cube newCubes e tm' e' he => exact enqueueStep_labels he hp
      | _ => exact .inl hp

theorem SolveMove.labels {s s' : MasterServer} {q q' : Solve} (hm : SolveMove s q s' q')
    {p : ℤ × Cube} (hp : s'.taskManager.Labels p ∨ p ∈ q'.call.carried) :
    (s.taskManager.Labels p ∨ p ∈ q.call.carried) ∨
      (∃ rest, q.call = .insert p.1 p.2 rest) ∧ s'.taskManager.Lists p.1 p.2 := by
  cases hm with
  | load e tm' e' he => exact enqueueStep_labels he hp
  | _ => exact .inl hp

/-! ### Drawn ids -/

/-- A running `makePayload` has drawn the id and not entered it yet. -/
def System.Drawn (s : System) (x : ℤ) : Prop :=
  x ∈ s.solve.call.drawn ∨ ∃ h ∈ s.handlers, x ∈ h.call.drawn

theorem enqueueStep_drawn {tm tm' : TaskManager} {e e' : EnqueueCubes}
    (h : enqueueStep tm e = some (tm', e')) :
    tm.nextID ≤ tm'.nextID ∧ ∀ x ∈ e'.drawn, x ∈ e.drawn ∨ tm.nextID < x := by
  rcases enqueueStep_cases h with ⟨cube, rest, rfl, rfl, rfl⟩ | ⟨id, cube, rest, rfl, -, rfl, rfl⟩ |
    ⟨id, cube, rest, rfl, rfl, rfl⟩ | ⟨task, rest, rfl, -, rfl, rfl⟩
  · refine ⟨Int.le_of_lt (Int.lt_succ _), fun x hx => .inr ?_⟩
    rw [List.mem_singleton.mp hx]
    exact Int.lt_succ _
  · exact ⟨le_refl _, fun x hx => absurd hx List.not_mem_nil⟩
  · exact ⟨le_refl _, fun x hx => absurd hx List.not_mem_nil⟩
  · exact ⟨le_refl _, fun x hx => absurd hx List.not_mem_nil⟩

theorem HandlerMove.drawn {s s' : MasterServer} {h h' : Handler} (hm : HandlerMove s h s' h') :
    s.taskManager.nextID ≤ s'.taskManager.nextID ∧
      ∀ x ∈ h'.call.drawn, x ∈ h.call.drawn ∨ s.taskManager.nextID < x := by
  cases hm with
  | getTask hg =>
      exact ⟨(hg.listed 0).2.symm.le, fun x hx => absurd hx List.not_mem_nil⟩
  | submitResult hm =>
      rcases hm.ids with ⟨tm', he, rfl⟩ | ⟨-, ⟨rest, hcall⟩, hnext, -⟩
      · exact enqueueStep_drawn he
      · refine ⟨hnext.symm.le, fun x hx => ?_⟩
        have hnone : x ∈ (EnqueueCubes.loop rest).drawn := hcall ▸ hx
        exact absurd hnone List.not_mem_nil

theorem SolveMove.drawn {s s' : MasterServer} {p p' : Solve} (hm : SolveMove s p s' p') :
    s.taskManager.nextID ≤ s'.taskManager.nextID ∧
      ∀ x ∈ p'.call.drawn, x ∈ p.call.drawn ∨ s.taskManager.nextID < x := by
  cases hm with
  | load e tm' e' he => exact enqueueStep_drawn he
  | _ => exact ⟨le_refl _, fun x hx => absurd hx List.not_mem_nil⟩

/-- **What one step adds**: one running call gives out the label of its cube, and nobody draws an id that
has been drawn before. -/
structure System.LabelsStep (s s' : System) (e : EnqueueCubes) : Prop where
  call : e = s.solve.call ∨ ∃ h ∈ s.handlers, e = h.call
  labels : ∀ p, s'.Labels p → s.Labels p ∨
    (∃ rest, e = .insert p.1 p.2 rest) ∧ s'.server.taskManager.Lists p.1 p.2
  nextID : s.server.taskManager.nextID ≤ s'.server.taskManager.nextID
  drawn : ∀ x, s'.Drawn x → s.Drawn x ∨ s.server.taskManager.nextID < x

theorem System.labels_step {s s' : System} {act : Action} (hs : s.step act = some s') :
    ∃ e, s.LabelsStep s' e := by
  have harrive : ∀ h : Handler, h.call = .loop [] → h.labels = [] →
      s.LabelsStep { s with handlers := s.handlers ++ [h] } s.solve.call := by
    intro h hcall hlabels
    refine ⟨.inl rfl, fun p hp => .inl ?_, le_refl _, fun x hx => .inl ?_⟩
    · refine hp.imp id (Or.imp id fun ⟨g, hg, hpg⟩ => ?_)
      rcases List.mem_append.mp hg with hg | hg
      · exact ⟨g, hg, hpg⟩
      · rw [List.mem_singleton.mp hg, hlabels] at hpg
        exact absurd hpg List.not_mem_nil
    · refine hx.imp id fun ⟨g, hg, hxg⟩ => ?_
      rcases List.mem_append.mp hg with hg | hg
      · exact ⟨g, hg, hxg⟩
      · rw [List.mem_singleton.mp hg, hcall] at hxg
        exact absurd hxg List.not_mem_nil
  cases System.move_of_step hs with
  | @solve server p hp =>
      refine ⟨s.solve.call, .inl rfl, fun q hq => ?_, hp.drawn.1, fun x hx => ?_⟩
      · rcases hq with hq | hq | hq
        · exact (hp.labels (.inl hq)).imp (fun h => h.imp id .inl) id
        · exact (hp.labels (.inr hq)).imp (fun h => h.imp id .inl) id
        · exact .inl (.inr (.inr hq))
      · rcases hx with hx | hx
        · exact (hp.drawn.2 x hx).imp .inl id
        · exact .inl (.inr hx)
  | getTask w => exact ⟨_, harrive _ rfl rfl⟩
  | submitResult r => exact ⟨_, harrive _ rfl rfl⟩
  | @handler pre h post server h' c heq hm =>
      have hmem : h ∈ s.handlers := by simp [heq]
      have hother : ∀ g, g ∈ pre ++ h' :: post → g = h' ∨ g ∈ s.handlers := by
        intro g hg
        rw [heq]
        simp only [List.mem_append, List.mem_cons] at hg ⊢
        tauto
      refine ⟨h.call, .inr ⟨h, hmem, rfl⟩, fun q hq => ?_, hm.drawn.1, fun x hx => ?_⟩
      · rcases hq with hq | hq | ⟨g, hg, hq⟩
        · exact (hm.labels (.inl hq)).imp (fun h => h.imp id fun h => .inr ⟨_, hmem, h⟩) id
        · exact .inl (.inr (.inl hq))
        · rcases hother g hg with rfl | hg
          · exact (hm.labels (.inr hq)).imp (fun h => h.imp id fun h => .inr ⟨_, hmem, h⟩) id
          · exact .inl (.inr (.inr ⟨g, hg, hq⟩))
      · rcases hx with hx | ⟨g, hg, hx⟩
        · exact .inl (.inl hx)
        · rcases hother g hg with rfl | hg
          · exact (hm.drawn.2 x hx).imp (fun h => .inr ⟨_, hmem, h⟩) id
          · exact .inl (.inr ⟨g, hg, hx⟩)

theorem System.LabelsStep.drawn_of_insert {s s' : System} {e : EnqueueCubes} (h : s.LabelsStep s' e)
    {p : ℤ × Cube} {rest : List Cube} (he : e = .insert p.1 p.2 rest) : s.Drawn p.1 := by
  have hx : p.1 ∈ e.drawn := by
    rw [he]
    exact List.mem_cons_self
  rcases h.call with rfl | ⟨g, hg, rfl⟩
  · exact .inl hx
  · exact .inr ⟨g, hg, hx⟩

/-! ### One cube for an id -/

/-- Labels are of ids drawn and entered, and no id has two. -/
structure System.Labelled (s : System) : Prop where
  agree : ∀ p q, s.Labels p → s.Labels q → p.1 = q.1 → p = q
  entered : ∀ p, s.Labels p → p.1 ≤ s.server.taskManager.nextID ∧ ¬s.Drawn p.1

section Runs

variable {cfg : HeuristicConfig} {workers : WorkerTracker} {cnf : CNFData} {cubes : List Cube}
  {guard : System → Action → Prop} {s : System}

theorem System.drawn_spec (hr : Reaches System.step guard (.init cfg workers cnf cubes) s) {x : ℤ}
    (hx : s.Drawn x) : x ≤ s.server.taskManager.nextID ∧ x ∉ s.server.taskManager.checkbook := by
  have hle := System.listed_le hr.reachable x
  refine ⟨?_, System.fresh hle hx⟩
  by_contra hlt
  have hborn : s.server.taskManager.born x = 0 := if_neg hlt
  simp only [System.listed, System.total] at hle
  rcases hx with hx | ⟨h, hh, hx⟩
  · have hpos := List.count_pos_iff.mpr hx
    omega
  · have hpos := List.count_pos_iff.mpr hx
    have hsum := List.single_le_sum (fun _ _ => Nat.zero_le _) _
      (List.mem_map_of_mem (f := fun h => h.call.drawn.count x) hh)
    omega

/-- **An id belongs to one cube.** -/
theorem System.labelled (hr : Reaches System.step guard (.init cfg workers cnf cubes) s) :
    s.Labelled := by
  refine hr.invariant' System.Labelled ?_ ?_
  · have hnone : ∀ p, ¬(System.init cfg workers cnf cubes).Labels p := by
      rintro p ((⟨entry, hl, -⟩ | hp) | hp | ⟨h, hh, -⟩)
      · exact nomatch hl
      · exact absurd hp List.not_mem_nil
      · exact absurd hp List.not_mem_nil
      · exact absurd hh List.not_mem_nil
    exact ⟨fun p q hp => absurd hp (hnone p), fun p hp => absurd hp (hnone p)⟩
  · intro s act s' hr hlab hg hs
    have hr' := hr.next hg hs
    obtain ⟨e, hstep⟩ := System.labels_step hs
    refine ⟨fun p q hp hq hpq => ?_, fun p hp => ?_⟩
    · rcases hstep.labels p hp with hp | ⟨⟨rest, hp⟩, -⟩
      · rcases hstep.labels q hq with hq | ⟨⟨rest, hq⟩, -⟩
        · exact hlab.agree p q hp hq hpq
        · exact absurd (hpq ▸ hstep.drawn_of_insert hq) (hlab.entered p hp).2
      · rcases hstep.labels q hq with hq | ⟨⟨rest', hq⟩, -⟩
        · exact absurd (hpq ▸ hstep.drawn_of_insert hp) (hlab.entered q hq).2
        · rw [hp] at hq
          exact Prod.ext (EnqueueCubes.insert.inj hq).1 (EnqueueCubes.insert.inj hq).2.1
    · rcases hstep.labels p hp with hp | ⟨⟨rest, he⟩, hlists⟩
      · obtain ⟨hle, hold⟩ := hlab.entered p hp
        refine ⟨hle.trans hstep.nextID, fun hd => ?_⟩
        rcases hstep.drawn p.1 hd with hd | hlt
        · exact hold hd
        · omega
      · exact ⟨((System.drawn_spec hr (hstep.drawn_of_insert he)).1).trans hstep.nextID,
          fun hd => (System.drawn_spec hr' hd).2 hlists.mem⟩

/-- The cubes that a call still has to enter are answered for. -/
theorem Handler.pending_subset (h : Handler) : h.call.pending ⊆ h.charge := by
  cases h with
  | getTask g => exact List.nil_subset _
  | submitResult g =>
      cases g with
      | enqueue r cube newCubes e => exact List.Subset.refl _
      | _ => exact List.nil_subset _

theorem Solve.pending_subset (p : Solve) : p.call.pending ⊆ p.charge := by
  cases p with
  | load e => exact List.Subset.refl _
  | _ => exact List.nil_subset _

/-- **What all cubes have, the cubes of ids have.** -/
theorem System.labels_all {P : Cube → Prop}
    (hr : Reaches System.step guard (.init cfg workers cnf cubes) s)
    (hall : ∀ s, Reaches System.step guard (.init cfg workers cnf cubes) s → s.AllCubes P) :
    ∀ p, s.Labels p → P p.2 := by
  refine hr.invariant' (fun s => ∀ p, s.Labels p → P p.2) ?_ ?_
  · rintro p ((⟨entry, hl, -⟩ | hp) | hp | ⟨h, hh, -⟩)
    · exact nomatch hl
    · exact absurd hp List.not_mem_nil
    · exact absurd hp List.not_mem_nil
    · exact absurd hh List.not_mem_nil
  · intro s act s' hr hold _ hs p hp
    obtain ⟨e, hstep⟩ := System.labels_step hs
    rcases hstep.labels p hp with hp | ⟨⟨rest, he⟩, -⟩
    · exact hold p hp
    · have hmem : p.2 ∈ e.pending := by
        rw [he]
        exact List.mem_cons_self
      rcases hstep.call with rfl | ⟨g, hg, rfl⟩
      · exact (hall s hr).solve _ (s.solve.pending_subset hmem)
      · exact (hall s hr).handlers g hg _ (g.pending_subset hmem)

end Runs

/-! ### Payloads -/

/-- The payload has the formula. -/
structure TaskPayload.Genuine (cnf : CNFData) (task : TaskPayload) : Prop where
  numVars : task.numVars = cnf.numVars
  numClauses : task.numClauses = cnf.numClauses
  formulaBody : task.formulaBody = cnf.body

/-- All payloads, on the queue, about to be sent or in a handler, have the formula. -/
structure System.Genuine (cnf : CNFData) (s : System) : Prop where
  queue : ∀ task ∈ s.server.taskManager.taskQueue, task.Genuine cnf
  solve : ∀ task ∈ s.solve.call.tasks, task.Genuine cnf
  handlers : ∀ h ∈ s.handlers, ∀ task ∈ h.tasks, task.Genuine cnf

theorem enqueueStep_genuine {tm tm' : TaskManager} {e e' : EnqueueCubes}
    (h : enqueueStep tm e = some (tm', e')) (hqueue : ∀ task ∈ tm.taskQueue, task.Genuine tm.cnfData)
    (hcall : ∀ task ∈ e.tasks, task.Genuine tm.cnfData) :
    (∀ task ∈ tm'.taskQueue, task.Genuine tm.cnfData) ∧ ∀ task ∈ e'.tasks, task.Genuine tm.cnfData := by
  rcases enqueueStep_cases h with ⟨cube, rest, rfl, rfl, rfl⟩ | ⟨id, cube, rest, rfl, -, rfl, rfl⟩ |
    ⟨id, cube, rest, rfl, rfl, rfl⟩ | ⟨task, rest, rfl, -, rfl, rfl⟩
  · exact ⟨hqueue, fun _ htask => absurd htask List.not_mem_nil⟩
  · exact ⟨hqueue, fun _ htask => absurd htask List.not_mem_nil⟩
  · exact ⟨hqueue, List.forall_mem_singleton.mpr ⟨rfl, rfl, rfl⟩⟩
  · exact ⟨forall_arrive hqueue (hcall task List.mem_cons_self),
      fun _ htask => absurd htask List.not_mem_nil⟩

/-- The stamp of `GetTask` changes the timeout only. -/
theorem HandlerMove.genuine {s s' : MasterServer} {h h' : Handler} (hm : HandlerMove s h s' h')
    (hqueue : ∀ task ∈ s.taskManager.taskQueue, task.Genuine s.taskManager.cnfData)
    (hself : ∀ task ∈ h.tasks, task.Genuine s.taskManager.cnfData) :
    (∀ task ∈ s'.taskManager.taskQueue, task.Genuine s.taskManager.cnfData) ∧
      ∀ task ∈ h'.tasks, task.Genuine s.taskManager.cnfData := by
  cases hm with
  | getTask hg =>
      cases hg with
      | dequeue w task rest hq =>
          rw [hq] at hqueue
          obtain ⟨hhead, htail⟩ := List.forall_mem_cons.mp hqueue
          exact ⟨htail, List.forall_mem_singleton.mpr hhead⟩
      | stamp w task =>
          obtain ⟨hvars, hclauses, hbody⟩ := hself task List.mem_cons_self
          exact ⟨hqueue, List.forall_mem_singleton.mpr ⟨hvars, hclauses, hbody⟩⟩
      | record w task _ =>
          refine ⟨?_, hself⟩
          show ∀ t ∈ (s.taskManager.recordAssignment task.taskId w.hostname).taskQueue, _
          rwa [s.taskManager.taskQueue_recordAssignment task.taskId w.hostname]
      | assign w task =>
          refine ⟨hqueue, fun t ht => ?_⟩
          simp only [Handler.tasks, GetTask.tasks] at ht
          split at ht
          · exact absurd ht List.not_mem_nil
          · exact hself t ht
      | _ => exact ⟨hqueue, hself⟩
  | submitResult hm =>
      cases hm with
      | accept r entry _ _ =>
          refine ⟨?_, fun t ht => absurd ht List.not_mem_nil⟩
          show ∀ t ∈ (s.taskManager.deleteTask r.taskId).taskQueue, _
          rwa [s.taskManager.taskQueue_deleteTask r.taskId]
      | enqueue r cube newCubes e tm' e' he => exact enqueueStep_genuine he hqueue hself
      | _ => exact ⟨hqueue, hself⟩

theorem SolveMove.genuine {s s' : MasterServer} {p p' : Solve} (hm : SolveMove s p s' p')
    (hqueue : ∀ task ∈ s.taskManager.taskQueue, task.Genuine s.taskManager.cnfData)
    (hself : ∀ task ∈ p.call.tasks, task.Genuine s.taskManager.cnfData) :
    (∀ task ∈ s'.taskManager.taskQueue, task.Genuine s.taskManager.cnfData) ∧
      ∀ task ∈ p'.call.tasks, task.Genuine s.taskManager.cnfData := by
  cases hm with
  | load e tm' e' he => exact enqueueStep_genuine he hqueue hself
  | _ => exact ⟨hqueue, hself⟩

/-- **Every payload has the formula that is being solved.** -/
theorem System.genuine {cfg : HeuristicConfig} {workers : WorkerTracker} {cnf : CNFData}
    {cubes : List Cube} {guard : System → Action → Prop} {s : System}
    (hr : Reaches System.step guard (.init cfg workers cnf cubes) s) : s.Genuine cnf := by
  refine hr.invariant' (System.Genuine cnf) ?_ ?_
  · exact ⟨fun _ ht => absurd ht List.not_mem_nil, fun _ ht => absurd ht List.not_mem_nil,
      fun _ hh => absurd hh List.not_mem_nil⟩
  · intro s act s' hr hold _ hs
    have hcnf := System.cnfData_eq hr
    rw [← hcnf] at hold ⊢
    cases System.move_of_step hs with
    | solve hp =>
        obtain ⟨hqueue, hself⟩ := hp.genuine hold.queue hold.solve
        exact ⟨hqueue, hself, hold.handlers⟩
    | getTask w =>
        exact ⟨hold.queue, hold.solve, forall_arrive hold.handlers
          fun _ ht => absurd ht List.not_mem_nil⟩
    | submitResult r =>
        exact ⟨hold.queue, hold.solve, forall_arrive hold.handlers
          fun _ ht => absurd ht List.not_mem_nil⟩
    | @handler pre h post server h' c heq hm =>
        obtain ⟨hqueue, hself⟩ := hm.genuine hold.queue (hold.handlers h (by simp [heq]))
        have hothers := hold.handlers
        rw [heq] at hothers
        exact ⟨hqueue, hold.solve, forall_exchange hothers hself⟩

/-- **What a worker is given is what the master remembers.**  In any run, a task in a reply has the
formula, its id is one that has been drawn, every reply with this id has the same cube, and so has the
checkbook as long as the task is outstanding. -/
theorem System.reply_agrees {cfg : HeuristicConfig} {workers : WorkerTracker} {cnf : CNFData}
    {cubes : List Cube} {s : System} (hr : Reachable System.step (.init cfg workers cnf cubes) s)
    {task : TaskPayload} (hmem : .getTask (.returned (some task)) ∈ s.handlers)
    (hid : task.taskId ≠ -1) :
    task.Genuine cnf ∧ task.taskId ≤ s.server.taskManager.nextID ∧
      (∀ other, .getTask (.returned (some other)) ∈ s.handlers → other.taskId = task.taskId →
        other.literals = task.literals) ∧
      ∀ entry, s.server.taskManager.checkbook.lookup task.taskId = some entry →
        entry.cube = task.literals := by
  have htasks : ∀ t : TaskPayload, t.taskId ≠ -1 →
      t ∈ (Handler.getTask (.returned (some t))).tasks := by
    intro t ht
    show t ∈ if t.taskId = -1 then [] else [t]
    rw [if_neg ht]
    exact List.mem_cons_self
  have hlabel : ∀ t : TaskPayload, t.taskId ≠ -1 → .getTask (.returned (some t)) ∈ s.handlers →
      s.Labels (t.taskId, t.literals) := fun t ht hm =>
    .inr (.inr ⟨_, hm, List.mem_map_of_mem (f := TaskPayload.label) (htasks t ht)⟩)
  have hlab := System.labelled hr
  refine ⟨(System.genuine hr).handlers _ hmem task (htasks task hid),
    (hlab.entered _ (hlabel task hid hmem)).1, fun other hother heq => ?_, fun entry hl => ?_⟩
  · exact (Prod.mk.inj (hlab.agree _ _ (hlabel other (heq ▸ hid) hother) (hlabel task hid hmem) heq)).2
  · exact (Prod.mk.inj (hlab.agree (task.taskId, entry.cube) _ (.inl (.inl ⟨entry, hl, rfl⟩))
      (hlabel task hid hmem) rfl)).2

/-- The handler has replied with a task. -/
def Handler.gives : Handler → Bool
  | .getTask (.returned (some _)) => true
  | _ => false

theorem Handler.eq_of_gives {h : Handler} (hgives : h.gives = true) :
    ∃ task, h = .getTask (.returned (some task)) := by
  unfold Handler.gives at hgives
  split at hgives
  · exact ⟨_, rfl⟩
  · exact Bool.noConfusion hgives

/-- The first task has been given to a worker. -/
theorem System.reply_agrees_first : ∃ s : System, ∃ task : TaskPayload, task.taskId = 1 ∧
    task.Genuine sevenVars ∧
    ∃ entry, s.server.taskManager.checkbook.lookup 1 = some entry ∧ entry.cube = task.literals := by
  have hrun : (exec System.step sevenVarsInit
      [List.replicate 6 .solve, [.getTask workerA], List.replicate 6 (.handler 0 .go)].flatten).map
        (fun s => ((s.handlers.flatMap Handler.tasks).map TaskPayload.taskId,
          (s.server.taskManager.checkbook.lookup 1).isSome,
          s.handlers.all Handler.gives)) =
      some ([1], true, true) := by
    decide +kernel
  obtain ⟨s, hs, htuple⟩ := Option.map_eq_some_iff.mp hrun
  obtain ⟨hids, htuple⟩ := Prod.mk.inj htuple
  obtain ⟨hsome, hall⟩ := Prod.mk.inj htuple
  obtain ⟨entry, hl⟩ := Option.isSome_iff_exists.mp hsome
  obtain ⟨task, htask, hone⟩ := List.mem_map.mp (hids ▸ List.mem_cons_self : (1 : ℤ) ∈ _)
  obtain ⟨h, hh, hmem⟩ := List.mem_flatMap.mp htask
  obtain ⟨t, rfl⟩ := Handler.eq_of_gives (List.all_eq_true.mp hall h hh)
  obtain rfl : task = t := by
    simp only [Handler.tasks, GetTask.tasks] at hmem
    split at hmem
    · exact absurd hmem List.not_mem_nil
    · exact List.mem_singleton.mp hmem
  have hne : task.taskId ≠ -1 := by rw [hone]; decide
  obtain ⟨hgenuine, -, -, hentry⟩ :=
    System.reply_agrees (Reaches.of_exec (fun _ _ _ => trivial) hs) hh hne
  exact ⟨s, task, hone, hgenuine, entry, hl, hentry entry (hone ▸ hl)⟩

end HydraSAT.Master
