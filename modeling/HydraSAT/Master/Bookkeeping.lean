import Mathlib.Tactic.LinearCombination
import HydraSAT.Master.Completion

/-!
# Bookkeeping

The queue, the checkbook and the counters are updated at different points of different methods,
without a common lock.  What each move adds to one of them it takes from another or from the
handler, so that the books balance whenever no handler is on its way:

* `System.carried`: the tasks that are on the queue or about to be sent are in the checkbook with
  their cubes;
* `System.sent_eq`: every id drawn so far is in one place;
* `System.tasks_balance` and `System.splits_balance`: the two equations between the counters, with
  what the handlers hold;
* `System.balanced`: the whole of it, in runs that submit no outstanding task before it is handed
  out.
-/

namespace HydraSAT.Master

open HydraSAT.Lib

/-- A result for an outstanding task is for one that `GetTask` has handed out.  Duplicates and results
for unknown ids are allowed. -/
def System.KnownAt (s : System) (act : Action) : Prop :=
  ∀ i c r, act = .handler i c → s.handlers[i]? = some (.submitResult (.remove r)) →
    r.taskId ∈ s.server.taskManager.checkbook → r.taskId ∈ s.server.history.handedOut

/-! ### Carried tasks -/

/-- The checkbook has the cube under the id. -/
def TaskManager.Lists (tm : TaskManager) (id : ℤ) (cube : Cube) : Prop :=
  ∃ entry, tm.checkbook.lookup id = some entry ∧ entry.cube = cube

/-- The tasks entered in the checkbook and not sent yet, with their cubes. -/
def EnqueueCubes.carried : EnqueueCubes → List (ℤ × Cube)
  | .activate id cube _ => [(id, cube)]
  | .send task _ => [(task.taskId, task.literals)]
  | _ => []

/-- The tasks on the queue, with their cubes. -/
def TaskManager.queued (tm : TaskManager) : List (ℤ × Cube) :=
  tm.taskQueue.map fun task => (task.taskId, task.literals)

/-- The tasks that are sent or about to be sent, and not handed out. -/
def System.carries (s : System) (p : ℤ × Cube) : Prop :=
  p ∈ s.server.taskManager.queued ∨ p ∈ s.solve.call.carried ∨ ∃ h ∈ s.handlers, p ∈ h.call.carried

theorem TaskManager.Lists.mem {tm : TaskManager} {id : ℤ} {cube : Cube} (h : tm.Lists id cube) :
    id ∈ tm.checkbook := by
  obtain ⟨entry, hl, -⟩ := h
  exact AList.lookup_isSome.mp (by rw [hl]; rfl)

theorem TaskManager.Lists.enter {tm : TaskManager} {id x : ℤ} {cube c : Cube} (h : tm.Lists x c)
    (hfresh : id ∉ tm.checkbook) : (tm.enter id cube).Lists x c := by
  obtain ⟨entry, hl, hc⟩ := h
  have hne : x ≠ id := by
    rintro rfl
    exact hfresh (TaskManager.Lists.mem ⟨entry, hl, hc⟩)
  exact ⟨entry, (AList.lookup_insert_ne hne).trans hl, hc⟩

theorem TaskManager.lists_enter (tm : TaskManager) (id : ℤ) (cube : Cube) :
    (tm.enter id cube).Lists id cube :=
  ⟨⟨cube, ""⟩, AList.lookup_insert _, rfl⟩

theorem TaskManager.Lists.deleteTask {tm : TaskManager} {id x : ℤ} {c : Cube} (h : tm.Lists x c)
    (hne : x ≠ id) : (tm.deleteTask id).Lists x c := by
  obtain ⟨entry, hl, hc⟩ := h
  unfold TaskManager.deleteTask
  split
  · exact ⟨entry, (AList.lookup_erase_ne hne).trans hl, hc⟩
  · exact ⟨entry, hl, hc⟩

theorem TaskManager.Lists.recordAssignment {tm : TaskManager} {x : ℤ} {c : Cube} (h : tm.Lists x c)
    (id : ℤ) (hostname : String) : (tm.recordAssignment id hostname).Lists x c := by
  obtain ⟨entry, hl, hc⟩ := h
  unfold TaskManager.recordAssignment
  split
  · rename_i e he
    by_cases hx : x = id
    · subst hx
      obtain rfl : e = entry := Option.some.inj (he.symm.trans hl)
      exact ⟨_, AList.lookup_insert _, hc⟩
    · exact ⟨entry, (AList.lookup_insert_ne hx).trans hl, hc⟩
  · exact ⟨entry, hl, hc⟩

/-- A step of `EnqueueCubes` lists more. -/
theorem enqueueStep_lists {tm tm' : TaskManager} {e e' : EnqueueCubes}
    (hfresh : ∀ x ∈ e.drawn, x ∉ tm.checkbook) (h : enqueueStep tm e = some (tm', e')) {x : ℤ}
    {c : Cube} (hl : tm.Lists x c) : tm'.Lists x c := by
  rcases enqueueStep_cases h with ⟨cube, rest, rfl, rfl, rfl⟩ | ⟨id, cube, rest, rfl, -, rfl, rfl⟩ |
    ⟨id, cube, rest, rfl, rfl, rfl⟩ | ⟨task, rest, rfl, -, rfl, rfl⟩
  · exact hl
  · exact hl.enter (hfresh id List.mem_cons_self)
  · exact hl
  · exact hl

/-- **What `EnqueueCubes` carries it has entered.** -/
theorem enqueueStep_carried {tm tm' : TaskManager} {e e' : EnqueueCubes}
    (h : enqueueStep tm e = some (tm', e')) {p : ℤ × Cube} (hp : p ∈ tm'.queued ∨ p ∈ e'.carried) :
    (p ∈ tm.queued ∨ p ∈ e.carried) ∨ tm'.Lists p.1 p.2 := by
  rcases enqueueStep_cases h with ⟨cube, rest, rfl, rfl, rfl⟩ | ⟨id, cube, rest, rfl, -, rfl, rfl⟩ |
    ⟨id, cube, rest, rfl, rfl, rfl⟩ | ⟨task, rest, rfl, -, rfl, rfl⟩
  · exact .inl hp
  · rcases hp with hp | hp
    · exact .inl (.inl hp)
    · rw [List.mem_singleton.mp hp]
      exact .inr (tm.lists_enter id cube)
  · exact .inl hp
  · refine .inl ?_
    rcases hp with hp | hp
    · have hqueued : (tm.push task).queued = tm.queued ++ [(task.taskId, task.literals)] :=
        List.map_append
      rw [hqueued, List.mem_append] at hp
      exact hp
    · exact absurd hp List.not_mem_nil

theorem TaskManager.taskQueue_recordAssignment (tm : TaskManager) (id : ℤ) (hostname : String) :
    (tm.recordAssignment id hostname).taskQueue = tm.taskQueue := by
  unfold TaskManager.recordAssignment
  split <;> rfl

theorem TaskManager.taskQueue_deleteTask (tm : TaskManager) (id : ℤ) :
    (tm.deleteTask id).taskQueue = tm.taskQueue := by
  unfold TaskManager.deleteTask
  split <;> rfl

/-- A handler's move keeps a task listed, unless it accepts a result for it. -/
theorem HandlerMove.lists {s s' : MasterServer} {h h' : Handler} (hm : HandlerMove s h s' h')
    (hfresh : ∀ x ∈ h.call.drawn, x ∉ s.taskManager.checkbook) {x : ℤ} {c : Cube}
    (hne : ∀ r, h = .submitResult (.remove r) → r.taskId ∈ s.taskManager.checkbook → x ≠ r.taskId)
    (hl : s.taskManager.Lists x c) : s'.taskManager.Lists x c := by
  cases hm with
  | getTask hg =>
      cases hg with
      | record w task _ => exact hl.recordAssignment _ _
      | _ => exact hl
  | submitResult hm =>
      cases hm with
      | accept r entry _ hentry =>
          have hmem : r.taskId ∈ s.taskManager.checkbook :=
            AList.lookup_isSome.mp (by rw [hentry]; rfl)
          exact hl.deleteTask (hne r rfl hmem)
      | enqueue r cube newCubes e tm' e' he => exact enqueueStep_lists hfresh he hl
      | _ => exact hl

/-- **What a handler carries it has entered.** -/
theorem HandlerMove.carried {s s' : MasterServer} {h h' : Handler} (hm : HandlerMove s h s' h')
    {p : ℤ × Cube} (hp : p ∈ s'.taskManager.queued ∨ p ∈ h'.call.carried) :
    (p ∈ s.taskManager.queued ∨ p ∈ h.call.carried) ∨ s'.taskManager.Lists p.1 p.2 := by
  cases hm with
  | getTask hg =>
      refine .inl (hp.imp (fun hqueue => ?_) id)
      clear hp
      cases hg with
      | dequeue w task rest hq =>
          show p ∈ s.taskManager.taskQueue.map _
          rw [hq]
          exact List.mem_cons_of_mem _ hqueue
      | record w task _ =>
          show p ∈ s.taskManager.taskQueue.map _
          rw [← s.taskManager.taskQueue_recordAssignment task.taskId w.hostname]
          exact hqueue
      | _ => exact hqueue
  | submitResult hm =>
      cases hm with
      | accept r entry _ _ =>
          refine .inl (hp.imp (fun hp => ?_) id)
          show p ∈ s.taskManager.taskQueue.map _
          rw [← s.taskManager.taskQueue_deleteTask r.taskId]
          exact hp
      | enqueue r cube newCubes e tm' e' he => exact enqueueStep_carried he hp
      | _ => exact .inl hp

/-- The ids of what a call carries are drawn and not sent. -/
theorem EnqueueCubes.unsent_of_carried {e : EnqueueCubes} {p : ℤ × Cube} (hp : p ∈ e.carried) :
    p.1 ∈ e.unsent := by
  cases e with
  | activate id cube rest => exact List.mem_singleton.mpr (congrArg Prod.fst (List.mem_singleton.mp hp))
  | send task rest => exact List.mem_singleton.mpr (congrArg Prod.fst (List.mem_singleton.mp hp))
  | loop rest => exact absurd hp List.not_mem_nil
  | insert id cube rest => exact absurd hp List.not_mem_nil

/-- **A carried task is not handed out.** -/
theorem System.carries_not_handedOut {s : System} {p : ℤ × Cube}
    (hle : s.sent p.1 ≤ s.server.taskManager.born p.1) (hp : s.carries p) :
    p.1 ∉ s.server.history.handedOut := by
  intro hout
  have hone := hle.trans (TaskManager.born_le _ _)
  have hpos := List.count_pos_iff.mpr hout
  simp only [System.sent, System.total, MasterServer.sent] at hone
  rcases hp with hp | hp | ⟨h, hh, hp⟩
  · obtain ⟨task, ht, rfl⟩ := List.mem_map.mp hp
    have hqueue := List.count_pos_iff.mpr (List.mem_map_of_mem (f := fun t => t.taskId) ht)
    simp only at hqueue hone hpos
    omega
  · have hcall := List.count_pos_iff.mpr (EnqueueCubes.unsent_of_carried hp)
    omega
  · have hcall := List.count_pos_iff.mpr (EnqueueCubes.unsent_of_carried hp)
    have hsum := List.single_le_sum (fun _ _ => Nat.zero_le _) _
      (List.mem_map_of_mem (f := fun h => h.call.unsent.count p.1) hh)
    omega

section Runs

variable {cfg : HeuristicConfig} {workers : WorkerTracker} {cnf : CNFData} {cubes : List Cube}
  {guard : System → Action → Prop} {s : System}

/-- **The carried tasks are in the checkbook with their cubes.** -/
theorem System.carried_listed (hr : Reaches System.step System.KnownAt (.init cfg workers cnf cubes) s)
    {p : ℤ × Cube} (hp : s.carries p) : s.server.taskManager.Lists p.1 p.2 := by
  refine hr.invariant' (fun s => ∀ p, s.carries p → s.server.taskManager.Lists p.1 p.2) ?_ ?_ p hp
  · rintro p (hp | hp | ⟨h, hh, -⟩)
    · exact absurd hp List.not_mem_nil
    · exact absurd hp List.not_mem_nil
    · exact absurd hh List.not_mem_nil
  · intro s act s' hr ih hg hs p hp
    have hfresh := fun x => @System.fresh x s (System.listed_le hr.reachable x)
    cases System.move_of_step hs with
    | @solve server q hq =>
        have hstep : (∀ p, p ∈ server.taskManager.queued ∨ p ∈ q.call.carried →
            (p ∈ s.server.taskManager.queued ∨ p ∈ s.solve.call.carried) ∨
              server.taskManager.Lists p.1 p.2) ∧
            ∀ x c, s.server.taskManager.Lists x c → server.taskManager.Lists x c := by
          have hdrawn : ∀ x ∈ s.solve.call.drawn, x ∉ s.server.taskManager.checkbook :=
            fun x hx => hfresh x (.inl hx)
          generalize s.solve = p₀ at hq hdrawn
          cases hq with
          | load e tm' e' he =>
              exact ⟨fun p hp => enqueueStep_carried he hp, fun x c hl => enqueueStep_lists hdrawn he hl⟩
          | _ => exact ⟨fun p hp => .inl hp, fun x c hl => hl⟩
        rcases hp with hp | hp | hp
        · rcases hstep.1 p (.inl hp) with hold | hnew
          · exact hstep.2 _ _ (ih p (hold.imp id .inl))
          · exact hnew
        · rcases hstep.1 p (.inr hp) with hold | hnew
          · exact hstep.2 _ _ (ih p (hold.imp id .inl))
          · exact hnew
        · exact hstep.2 _ _ (ih p (.inr (.inr hp)))
    | getTask w =>
        refine ih p (hp.imp id (Or.imp id fun ⟨h, hh, hc⟩ => ⟨h, ?_, hc⟩))
        refine (List.mem_append.mp hh).resolve_right fun hnew => ?_
        rw [List.mem_singleton.mp hnew] at hc
        exact List.not_mem_nil hc
    | submitResult r =>
        refine ih p (hp.imp id (Or.imp id fun ⟨h, hh, hc⟩ => ⟨h, ?_, hc⟩))
        refine (List.mem_append.mp hh).resolve_right fun hnew => ?_
        rw [List.mem_singleton.mp hnew] at hc
        exact List.not_mem_nil hc
    | @handler pre h post server h' c heq hm =>
        have hmem : h ∈ s.handlers := by
          rw [heq]
          exact List.mem_append_right _ List.mem_cons_self
        have hdrawn : ∀ x ∈ h.call.drawn, x ∉ s.server.taskManager.checkbook :=
          fun x hx => hfresh x (.inr ⟨h, hmem, hx⟩)
        have hkeep : ∀ p, s.carries p → server.taskManager.Lists p.1 p.2 := by
          intro p hp
          refine hm.lists hdrawn (fun r hr' hin heq' => ?_) (ih p hp)
          refine System.carries_not_handedOut (System.sent_le hr.reachable p.1) hp ?_
          rw [heq']
          exact hg pre.length c r rfl (by simp [heq, hr']) hin
        have hmove : p ∈ server.taskManager.queued ∨ p ∈ h'.call.carried →
            server.taskManager.Lists p.1 p.2 := by
          intro hp
          rcases hm.carried hp with hold | hnew
          · exact hkeep p (hold.imp id fun hc => .inr ⟨h, hmem, hc⟩)
          · exact hnew
        rcases hp with hp | hp | ⟨u, hu, hp⟩
        · exact hmove (.inl hp)
        · exact hkeep p (.inr (.inl hp))
        · by_cases hmover : u = h'
          · exact hmove (.inr (hmover ▸ hp))
          · refine hkeep p (.inr (.inr ⟨u, ?_, hp⟩))
            rw [heq]
            exact mem_exchange hu hmover

end Runs

/-! ### Issued ids -/

/-- The ids drawn so far. -/
def TaskManager.issuedIds (tm : TaskManager) : List ℤ :=
  (List.range tm.nextID.toNat).map fun k : ℕ => (k : ℤ) + 1

/-- One for the ids drawn so far. -/
def TaskManager.issued (x : ℤ) (tm : TaskManager) : ℕ := if 0 < x ∧ x ≤ tm.nextID then 1 else 0

theorem TaskManager.count_issuedIds (x : ℤ) (tm : TaskManager) :
    tm.issuedIds.count x = tm.issued x := by
  have hnodup : tm.issuedIds.Nodup :=
    List.nodup_range.map fun a b (hab : (a : ℤ) + 1 = (b : ℤ) + 1) => by omega
  have hmem : x ∈ tm.issuedIds ↔ 0 < x ∧ x ≤ tm.nextID := by
    unfold TaskManager.issuedIds
    rw [List.mem_map]
    constructor
    · rintro ⟨k, hk, rfl⟩
      have hlt := List.mem_range.mp hk
      omega
    · rintro ⟨hpos, hle⟩
      exact ⟨(x - 1).toNat, List.mem_range.mpr (by omega), by omega⟩
  rw [hnodup.count]
  exact if_congr hmem rfl rfl

/-- Of the positive ids those that are born are issued. -/
theorem TaskManager.issued_eq (x : ℤ) (tm : TaskManager) :
    tm.issued x = if 0 < x then tm.born x else 0 := ite_and _ _ _ _

/-- Drawing an id issues exactly that id. -/
theorem TaskManager.issued_drawID (x : ℤ) {tm : TaskManager} (hnonneg : 0 ≤ tm.nextID) :
    tm.drawID.issued x = tm.issued x + [tm.nextID + 1].count x := by
  rw [TaskManager.issued_eq, TaskManager.issued_eq]
  by_cases hx : 0 < x
  · rw [if_pos hx, if_pos hx]
    exact tm.born_drawID x
  · rw [if_neg hx, if_neg hx, List.count_eq_zero.mpr (by simp; omega)]

theorem enqueueStep_issued {tm tm' : TaskManager} {e e' : EnqueueCubes} (x : ℤ)
    (hnonneg : 0 ≤ tm.nextID) (h : enqueueStep tm e = some (tm', e')) :
    (tm'.taskQueue.map (·.taskId)).count x + e'.unsent.count x + tm.issued x =
      (tm.taskQueue.map (·.taskId)).count x + e.unsent.count x + tm'.issued x := by
  refine enqueueStep_sent_of (TaskManager.issued_drawID x hnonneg) (fun tm' hnext => ?_) h
  rw [TaskManager.issued, hnext]
  rfl

/-- Places of an id, less one if it is issued. -/
def MasterServer.misplaced (x : ℤ) (s : MasterServer) : ℤ := s.sent x - s.taskManager.issued x

section Runs

variable {cfg : HeuristicConfig} {workers : WorkerTracker} {cnf : CNFData} {cubes : List Cube}
  {guard : System → Action → Prop} {s : System}

/-- **Every issued id is in one place**, and no other id is anywhere. -/
theorem System.sent_eq (hr : Reaches System.step guard (.init cfg workers cnf cubes) s) (x : ℤ) :
    s.total (fun m => m.misplaced x) (fun p => (p.call.unsent.count x : ℤ))
      (fun h => (h.call.unsent.count x : ℤ)) = 0 := by
  refine hr.invariant' (fun s => System.total (fun m => m.misplaced x)
    (fun p => (p.call.unsent.count x : ℤ)) (fun h => (h.call.unsent.count x : ℤ)) s = 0) ?_ ?_
  · have hnone : (TaskManager.new cnf).issued x = 0 := if_neg fun h => by
      have hle : x ≤ 0 := h.2
      omega
    show (0 : ℤ) - ((TaskManager.new cnf).issued x : ℤ) + 0 + 0 = 0
    rw [hnone]
    rfl
  · intro s act s' hr hzero _ hs
    have hnonneg := System.nextID_nonneg hr.reachable
    refine (System.total_step hs (fun _ => rfl) (fun _ => rfl) ?_ ?_).trans hzero
    · intro q server p _ _ hp
      cases hp with
      | load e tm' e' he =>
          have hmove := enqueueStep_issued x hnonneg he
          simp only [MasterServer.misplaced, MasterServer.sent, Solve.call]
          omega
      | _ => rfl
    · intro i c h server h' _ _ hm
      cases hm with
      | getTask hg =>
          obtain ⟨hsent, hnext⟩ := hg.sent x
          simp only [MasterServer.misplaced, TaskManager.issued, Handler.call, hsent, hnext]
      | submitResult hm =>
          rcases hm.ids with ⟨tm', he, rfl⟩ | ⟨⟨rest, hc⟩, ⟨rest', hc'⟩, hnext, hqueue, hout, -⟩
          · have hmove := enqueueStep_issued x hnonneg he
            simp only [MasterServer.misplaced, MasterServer.sent, Handler.call]
            omega
          · simp only [MasterServer.misplaced, MasterServer.sent, TaskManager.issued, Handler.call, hc,
              hc', hnext, hqueue, hout]
            rfl

end Runs

/-! ### The equations between the counters -/

/-- The cubes of an `EnqueueCubes` call that are not counted active yet. -/
def EnqueueCubes.inactive : EnqueueCubes → ℤ
  | .loop rest => rest.length
  | .insert _ _ rest => rest.length + 1
  | .activate _ _ rest => rest.length + 1
  | .send _ rest => rest.length

theorem enqueueStep_active {tm tm' : TaskManager} {e e' : EnqueueCubes}
    (h : enqueueStep tm e = some (tm', e')) :
    (tm'.activeTasks : ZMod 4294967296) + (e'.inactive : ZMod 4294967296) =
      (tm.activeTasks : ZMod 4294967296) + (e.inactive : ZMod 4294967296) := by
  rcases enqueueStep_cases h with ⟨cube, rest, rfl, rfl, rfl⟩ | ⟨id, cube, rest, rfl, -, rfl, rfl⟩ |
    ⟨id, cube, rest, rfl, rfl, rfl⟩ | ⟨task, rest, rfl, -, rfl, rfl⟩
  · show _ + (((rest.length : ℤ) + 1 : ℤ) : ZMod 4294967296) = _ + (((cube :: rest).length : ℤ) : ZMod _)
    rw [List.length_cons, Nat.cast_add, Nat.cast_one]
    rfl
  · rfl
  · show ((int32 (tm.activeTasks + 1) : ℤ) : ZMod 4294967296) + ((rest.length : ℤ) : ZMod _) =
      _ + (((rest.length : ℤ) + 1 : ℤ) : ZMod _)
    rw [cast_int32]
    push_cast
    ring
  · rfl

/-- Tasks in the total that are neither completed nor timed out nor active. -/
def MasterServer.unbooked (s : MasterServer) : ZMod 4294967296 :=
  s.totalTasks - s.completedTasks - s.timedOutTasks - s.taskManager.activeTasks

/-- How many of these tasks a handler answers for. -/
def SubmitResult.unbooked : SubmitResult → ℤ
  | .remove _ => 0
  | .release _ _ _ => 0
  | .split _ _ => 0
  | .enqueue _ _ _ e => e.inactive
  | .readActive _ => 0
  | .readQueue _ => 0
  | .announce _ => 0
  | .returned _ => 0
  | _ => 1

/-- What a handler contributes to the balance. -/
def Handler.unbooked : Handler → ZMod 4294967296
  | .getTask _ => 0
  | .submitResult h => -(h.unbooked : ZMod 4294967296)

/-- What `Solve` contributes to the balance. -/
def Solve.unbooked : Solve → ZMod 4294967296
  | .load e => -(e.inactive : ZMod 4294967296)
  | _ => 0

theorem HandlerMove.unbooked {s s' : MasterServer} {h h' : Handler} (hm : HandlerMove s h s' h') :
    s'.unbooked + h'.unbooked = s.unbooked + h.unbooked := by
  cases hm with
  | getTask hg =>
      cases hg with
      | record w task _ =>
          have hsame : (s.taskManager.recordAssignment task.taskId w.hostname).activeTasks =
              s.taskManager.activeTasks := by
            unfold TaskManager.recordAssignment
            split <;> rfl
          simp only [MasterServer.unbooked, Handler.unbooked, hsame]
      | _ => rfl
  | submitResult hm =>
      cases hm with
      | accept r entry _ _ =>
          have hsame : (s.taskManager.deleteTask r.taskId).activeTasks = s.taskManager.activeTasks := by
            unfold TaskManager.deleteTask
            split <;> rfl
          simp only [MasterServer.unbooked, MasterServer.accept, Handler.unbooked, SubmitResult.unbooked,
            hsame]
      | release r hostname cube =>
          simp only [MasterServer.unbooked, Handler.unbooked, SubmitResult.unbooked,
            TaskManager.releaseTask, TaskManager.addActive, cast_int32]
          push_cast
          ring
      | countTimeout r cube =>
          simp only [MasterServer.unbooked, Handler.unbooked, SubmitResult.unbooked, cast_int32]
          push_cast
          ring
      | split r cube entries _ =>
          simp only [MasterServer.unbooked, Handler.unbooked, SubmitResult.unbooked,
            EnqueueCubes.inactive, cast_int32]
          push_cast
          ring
      | enqueue r cube newCubes e tm' e' he =>
          have hmove := enqueueStep_active he
          simp only [MasterServer.unbooked, Handler.unbooked, SubmitResult.unbooked]
          linear_combination -hmove
      | countCompleted r =>
          simp only [MasterServer.unbooked, Handler.unbooked, SubmitResult.unbooked, cast_int32]
          push_cast
          ring
      | enqueued r cube newCubes => rfl
      | _ => rfl

theorem SolveMove.unbooked {s s' : MasterServer} {p p' : Solve} (hm : SolveMove s p s' p') :
    s'.unbooked + p'.unbooked = s.unbooked + p.unbooked := by
  cases hm with
  | countTotal cubes =>
      simp only [MasterServer.unbooked, Solve.unbooked, EnqueueCubes.inactive, cast_int32]
      push_cast
      ring
  | load e tm' e' he =>
      have hmove := enqueueStep_active he
      simp only [MasterServer.unbooked, Solve.unbooked]
      linear_combination -hmove
  | loaded =>
      simp only [Solve.unbooked, EnqueueCubes.inactive]
      simp
  | _ => rfl

/-- The total, less two for every timeout. -/
def MasterServer.unsplit (s : MasterServer) : ZMod 4294967296 := s.totalTasks - 2 * s.timedOutTasks

/-- The children that a handler has announced by counting a timeout and not counted yet. -/
def Handler.unsplit : Handler → ZMod 4294967296
  | .submitResult (.split _ _) => 2
  | _ => 0

/-- The initial cubes `Solve` has not counted yet. -/
def Solve.unsplit : Solve → ZMod 4294967296
  | .broadcast cubes => (cubes.length : ZMod 4294967296)
  | .countTotal cubes => (cubes.length : ZMod 4294967296)
  | _ => 0

/-- A timeout makes two tasks of one. -/
theorem HandlerMove.unsplit {s s' : MasterServer} {h h' : Handler} (hm : HandlerMove s h s' h') :
    s'.unsplit + h'.unsplit = s.unsplit + h.unsplit := by
  cases hm with
  | getTask hg => cases hg <;> rfl
  | submitResult hm =>
      cases hm with
      | countTimeout r cube =>
          simp only [MasterServer.unsplit, Handler.unsplit, cast_int32]
          push_cast
          ring
      | split r cube entries _ =>
          have htwo : (splitCubeSmart cube entries).length = 2 := rfl
          simp only [MasterServer.unsplit, Handler.unsplit, cast_int32, htwo]
          push_cast
          ring
      | _ => rfl

theorem SolveMove.unsplit {s s' : MasterServer} {p p' : Solve} (hm : SolveMove s p s' p') :
    s'.unsplit + p'.unsplit = s.unsplit + p.unsplit := by
  cases hm with
  | countTotal cubes =>
      simp only [MasterServer.unsplit, Solve.unsplit, cast_int32]
      push_cast
      ring
  | _ => rfl

/-! ### Balanced states -/

/-- The handler has removed a task and has not booked it: neither completed nor replaced. -/
def SubmitResult.midWay : SubmitResult → Bool
  | .remove _ => false
  | .enqueue _ _ _ e => !e.finished
  | .readActive _ => false
  | .readQueue _ => false
  | .announce _ => false
  | .returned _ => false
  | _ => true

/-- `midWay`, for any handler. -/
def Handler.midWay : Handler → Bool
  | .getTask _ => false
  | .submitResult h => h.midWay

/-- The books of a problem with `n` initial cubes balance.  The counters are 32-bit registers. -/
structure MasterServer.Balanced (n : ℕ) (s : MasterServer) : Prop where
  active : s.taskManager.activeTasks = int32 s.taskManager.checkbook.keys.length
  distinct : (s.taskManager.taskQueue.map (·.taskId)).Nodup
  listed : ∀ task ∈ s.taskManager.taskQueue,
    ∃ entry, s.taskManager.checkbook.lookup task.taskId = some entry ∧ entry.cube = task.literals
  issued : (s.history.handedOut ++ s.taskManager.taskQueue.map (·.taskId)).Perm s.taskManager.issuedIds
  total : s.totalTasks = int32 (s.completedTasks + s.timedOutTasks + s.taskManager.activeTasks)
  splits : s.totalTasks = int32 (n + 2 * s.timedOutTasks)

/-- A register that agrees with a number modulo its size holds it. -/
theorem eq_int32_of_cast {x y : ℤ} (hx : InInt32 x)
    (h : (x : ZMod 4294967296) = (y : ZMod 4294967296)) : x = int32 y := by
  have hmod := (ZMod.intCast_eq_intCast_iff x y 4294967296).mp h
  unfold Int.ModEq at hmod
  unfold InInt32 at hx
  unfold int32
  omega

theorem enqueueStep_register {tm tm' : TaskManager} {e e' : EnqueueCubes}
    (h : enqueueStep tm e = some (tm', e')) (hin : InInt32 tm.activeTasks) : InInt32 tm'.activeTasks := by
  rcases enqueueStep_cases h with ⟨_, _, -, rfl, -⟩ | ⟨_, _, _, -, -, rfl, -⟩ |
    ⟨_, _, _, -, rfl, -⟩ | ⟨_, _, -, -, rfl, -⟩
  · exact hin
  · exact hin
  · exact int32_inRange _
  · exact hin

theorem HandlerMove.registers {s s' : MasterServer} {h h' : Handler} (hm : HandlerMove s h s' h')
    (hin : InInt32 s.totalTasks ∧ InInt32 s.taskManager.activeTasks) :
    InInt32 s'.totalTasks ∧ InInt32 s'.taskManager.activeTasks := by
  cases hm with
  | getTask hg =>
      cases hg with
      | record w task _ =>
          refine ⟨hin.1, ?_⟩
          show InInt32 (s.taskManager.recordAssignment task.taskId w.hostname).activeTasks
          unfold TaskManager.recordAssignment
          split <;> exact hin.2
      | _ => exact hin
  | submitResult hm =>
      cases hm with
      | accept r entry _ _ =>
          refine ⟨hin.1, ?_⟩
          show InInt32 (s.taskManager.deleteTask r.taskId).activeTasks
          unfold TaskManager.deleteTask
          split <;> exact hin.2
      | release r hostname cube => exact ⟨hin.1, int32_inRange _⟩
      | split r cube entries _ => exact ⟨int32_inRange _, hin.2⟩
      | enqueue r cube newCubes e tm' e' he => exact ⟨hin.1, enqueueStep_register he hin.2⟩
      | _ => exact hin

section Runs

variable {cfg : HeuristicConfig} {workers : WorkerTracker} {cnf : CNFData} {cubes : List Cube}
  {guard : System → Action → Prop} {s : System}

theorem System.registers (hr : Reaches System.step guard (.init cfg workers cnf cubes) s) :
    InInt32 s.server.totalTasks ∧ InInt32 s.server.taskManager.activeTasks := by
  refine hr.invariant
    (fun s => InInt32 s.server.totalTasks ∧ InInt32 s.server.taskManager.activeTasks)
    ⟨int32_inRange 0, int32_inRange 0⟩ ?_
  intro s act s' hin _ hs
  cases System.move_of_step hs with
  | solve hp =>
      generalize s.solve = q at hp
      cases hp with
      | countTotal cubes => exact ⟨int32_inRange _, hin.2⟩
      | load e tm' e' he => exact ⟨hin.1, enqueueStep_register he hin.2⟩
      | _ => exact hin
  | getTask w => exact hin
  | submitResult r => exact hin
  | handler c heq hm => exact hm.registers hin

/-- **Total = completed + timed out + active**, up to what is on its way. -/
theorem System.tasks_balance (hr : Reaches System.step guard (.init cfg workers cnf cubes) s) :
    s.total MasterServer.unbooked Solve.unbooked Handler.unbooked = 0 := by
  refine hr.invariant
    (fun s => System.total MasterServer.unbooked Solve.unbooked Handler.unbooked s = 0) ?_ ?_
  · simp [System.total, System.init, MasterServer.unbooked, TaskManager.new, Solve.unbooked]
  · intro s act s' hzero _ hs
    refine (System.total_step hs (fun _ => rfl) (fun _ => ?_) ?_ ?_).trans hzero
    · show -((0 : ℤ) : ZMod 4294967296) = 0
      simp
    · intro q server p _ _ hp
      exact hp.unbooked
    · intro i c h server h' _ _ hm
      exact hm.unbooked

/-- **Total = initial cubes + two for every timeout**, up to what is on its way. -/
theorem System.splits_balance (hr : Reaches System.step guard (.init cfg workers cnf cubes) s) :
    s.total MasterServer.unsplit Solve.unsplit Handler.unsplit = (cubes.length : ZMod 4294967296) := by
  refine hr.invariant (fun s => System.total MasterServer.unsplit Solve.unsplit Handler.unsplit s =
    (cubes.length : ZMod 4294967296)) ?_ ?_
  · simp [System.total, System.init, MasterServer.unsplit, Solve.unsplit]
  · intro s act s' hsum _ hs
    refine (System.total_step hs (fun _ => rfl) (fun _ => rfl) ?_ ?_).trans hsum
    · intro q server p _ _ hp
      exact hp.unsplit
    · intro i c h server h' _ _ hm
      exact hm.unsplit

/-- A finished call has nothing to draw, to send or to count. -/
theorem SubmitResult.call_of_booked {h : SubmitResult} (hbooked : h.midWay = false) :
    h.call = .loop [] := by
  cases h with
  | enqueue r cube newCubes e => exact EnqueueCubes.eq_of_finished hbooked
  | _ => rfl

theorem Handler.call_of_booked {h : Handler} (hbooked : h.midWay = false) : h.call = .loop [] := by
  cases h with
  | getTask _ => rfl
  | submitResult h => exact SubmitResult.call_of_booked hbooked

theorem Handler.balanced_of_booked {h : Handler} (hbooked : h.midWay = false) :
    h.surplus = 0 ∧ h.unbooked = 0 ∧ h.unsplit = 0 := by
  cases h with
  | getTask _ => exact ⟨rfl, rfl, rfl⟩
  | submitResult h =>
      cases h with
      | enqueue r cube newCubes e =>
          rw [EnqueueCubes.eq_of_finished hbooked]
          refine ⟨Int.cast_zero, ?_, rfl⟩
          show -((0 : ℤ) : ZMod 4294967296) = 0
          simp
      | remove r => exact ⟨Int.cast_zero, by simp [Handler.unbooked, SubmitResult.unbooked], rfl⟩
      | readActive r => exact ⟨Int.cast_zero, by simp [Handler.unbooked, SubmitResult.unbooked], rfl⟩
      | readQueue r => exact ⟨Int.cast_zero, by simp [Handler.unbooked, SubmitResult.unbooked], rfl⟩
      | announce r => exact ⟨Int.cast_zero, by simp [Handler.unbooked, SubmitResult.unbooked], rfl⟩
      | returned ok => exact ⟨Int.cast_zero, by simp [Handler.unbooked, SubmitResult.unbooked], rfl⟩
      | _ => exact Bool.noConfusion hbooked

/-- A sum over handlers that contribute nothing. -/
theorem sum_handlers_zero {M : Type*} [AddCommMonoid M] {g : Handler → M} {handlers : List Handler}
    (h : ∀ u ∈ handlers, g u = 0) : (handlers.map g).sum = 0 := by
  refine List.sum_eq_zero fun n hn => ?_
  obtain ⟨u, hu, rfl⟩ := List.mem_map.mp hn
  exact h u hu

theorem Solve.balanced_of_loaded {p : Solve} (hloaded : p.enqueues = false) :
    p.unbooked = 0 ∧ p.unsplit = 0 ∧ p.call.unsent = [] := by
  cases p with
  | load e =>
      rw [EnqueueCubes.eq_of_finished hloaded]
      refine ⟨?_, rfl, rfl⟩
      show -((0 : ℤ) : ZMod 4294967296) = 0
      simp
  | broadcast cubes => exact Bool.noConfusion hloaded
  | countTotal cubes => exact Bool.noConfusion hloaded
  | _ => exact ⟨rfl, rfl, rfl⟩

/-- **The books balance** whenever `Solve` has loaded and no handler is midway. -/
theorem System.balanced (hr : Reaches System.step System.KnownAt (.init cfg workers cnf cubes) s)
    (hloaded : s.solve.enqueues = false) (hbooked : ∀ h ∈ s.handlers, h.midWay = false) :
    s.server.Balanced cubes.length := by
  obtain ⟨hsolve, hsolve', hunsent⟩ := Solve.balanced_of_loaded hloaded
  obtain ⟨htotalIn, hactiveIn⟩ := System.registers hr
  refine ⟨?_, ?_, ?_, ?_, ?_, ?_⟩
  · have hbal := System.active_balance hr
    rw [System.total, Solve.surplus_of_loaded hloaded,
      sum_handlers_zero fun h hh => (Handler.balanced_of_booked (hbooked h hh)).1] at hbal
    refine eq_int32_of_cast hactiveIn ?_
    rw [Int.cast_natCast]
    rw [TaskManager.surplus] at hbal
    linear_combination -hbal
  · refine List.nodup_iff_count_le_one.mpr fun x => ?_
    have hone := (System.sent_le hr.reachable x).trans (TaskManager.born_le x _)
    simp only [System.sent, System.total, MasterServer.sent] at hone
    omega
  · intro task ht
    exact System.carried_listed hr (.inl (List.mem_map_of_mem ht))
  · refine List.perm_iff_count.mpr fun x => ?_
    have hsent := System.sent_eq hr x
    have hnone : (s.handlers.map fun h => (h.call.unsent.count x : ℤ)).sum = 0 :=
      sum_handlers_zero fun h hh => by rw [Handler.call_of_booked (hbooked h hh)]; rfl
    rw [System.total, hnone, hunsent] at hsent
    rw [TaskManager.count_issuedIds, List.count_append]
    simp only [MasterServer.misplaced, MasterServer.sent, List.count_nil] at hsent
    omega
  · have hbal := System.tasks_balance hr
    rw [System.total, hsolve,
      sum_handlers_zero fun h hh => (Handler.balanced_of_booked (hbooked h hh)).2.1] at hbal
    refine eq_int32_of_cast htotalIn ?_
    push_cast
    rw [MasterServer.unbooked] at hbal
    linear_combination hbal
  · have hbal := System.splits_balance hr
    rw [System.total, hsolve',
      sum_handlers_zero fun h hh => (Handler.balanced_of_booked (hbooked h hh)).2.2] at hbal
    refine eq_int32_of_cast htotalIn ?_
    push_cast
    rw [MasterServer.unsplit] at hbal
    linear_combination hbal

end Runs

/-- `KnownAt`, evaluated. -/
def System.knownCheck (s : System) : Action → Bool
  | .handler i _ =>
      match s.handlers[i]? with
      | some (.submitResult (.remove r)) =>
          !decide (r.taskId ∈ s.server.taskManager.checkbook.keys) ||
            decide (r.taskId ∈ s.server.history.handedOut)
      | _ => true
  | _ => true

theorem System.known_of_check {s : System} {act : Action} (h : s.knownCheck act = true) :
    s.KnownAt act := by
  rintro i c r rfl hi hmem
  simp only [System.knownCheck, hi, Bool.or_eq_true, Bool.not_eq_true', decide_eq_false_iff_not,
    decide_eq_true_eq] at h
  exact h.resolve_left fun hnot => hnot (AList.mem_keys.mp hmem)

/-- A result of a task that ran into its timeout. -/
def timeoutAnswer (taskId : ℤ) : TaskResult :=
  { taskId := taskId, workerId := "a", count := "0", durationSec := 30, timedOut := true }

/-- Two cubes; the first is handed out, runs into its timeout and is split. -/
def oneTimeout : List Action :=
  [List.replicate 11 .solve, [.getTask workerA], List.replicate 6 (.handler 0 .go),
    [.submitResult (timeoutAnswer 1)], List.replicate 4 (.handler 1 .go),
    [.handler 1 (.visit (freqTable sevenVars.clauses))], List.replicate 10 (.handler 1 .go)].flatten

theorem System.balanced_oneTimeout :
    ∃ s : System, s.server.totalTasks = 4 ∧ s.server.timedOutTasks = 1 ∧ s.server.Balanced 2 := by
  have hrun : (exec (fun s a => if System.knownCheck s a then System.step s a else none)
      (.init defaultConfig .new sevenVars [[1], [-1]]) oneTimeout).map (fun s =>
        (s.server.totalTasks, s.server.timedOutTasks, s.solve.enqueues,
          s.handlers.any Handler.midWay)) = some (4, 1, false, false) := by
    decide +kernel
  obtain ⟨s, hs, hquad⟩ := Option.map_eq_some_iff.mp hrun
  obtain ⟨htotal, htriple⟩ := Prod.mk.inj hquad
  obtain ⟨htimedOut, hpair⟩ := Prod.mk.inj htriple
  obtain ⟨hloaded, hbooked⟩ := Prod.mk.inj hpair
  have hr := Reaches.of_exec_checked (fun _ _ => System.known_of_check) hs
  refine ⟨s, htotal, htimedOut, System.balanced hr hloaded fun h hh => ?_⟩
  exact Bool.eq_false_iff.mpr fun htrue =>
    Bool.noConfusion (hbooked.symm.trans (List.any_eq_true.mpr ⟨h, hh, htrue⟩))

end HydraSAT.Master
