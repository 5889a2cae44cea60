import Mathlib.Algebra.Order.BigOperators.Group.List
import HydraSAT.Master.Server

/-!
# Task ids

Every id is drawn once, and from then on it is in one place: with the `EnqueueCubes` call that drew
it, in the checkbook, on the queue, or handed out.

* `System.fresh`: an id about to be entered in the checkbook is not in it;
* `System.handedOut_nodup`: no id is handed out twice;
* `System.ids_pos`: ids are positive, so that the `-1` of an empty reply is none.

Both come from counting one id over the system: the count is bounded by `born`, which is one
for the ids drawn so far and zero for the others.
-/

namespace HydraSAT.Master

open HydraSAT.Lib

/-- The `EnqueueCubes` call a handler is in, a finished one if it is in none. -/
def SubmitResult.call : SubmitResult → EnqueueCubes
  | .enqueue _ _ _ e => e
  | _ => .loop []

/-- The `EnqueueCubes` call a handler is in. -/
def Handler.call : Handler → EnqueueCubes
  | .getTask _ => .loop []
  | .submitResult h => h.call

/-- The `EnqueueCubes` call `Solve` is in. -/
def Solve.call : Solve → EnqueueCubes
  | .load e => e
  | _ => .loop []

/-- One for the ids drawn so far. -/
def TaskManager.born (x : ℤ) (tm : TaskManager) : ℕ := if x ≤ tm.nextID then 1 else 0

theorem TaskManager.born_le (x : ℤ) (tm : TaskManager) : tm.born x ≤ 1 := by
  unfold TaskManager.born
  split <;> omega

/-- Drawing an id bears exactly that id. -/
theorem TaskManager.born_drawID (x : ℤ) (tm : TaskManager) :
    tm.drawID.born x = tm.born x + [tm.nextID + 1].count x := by
  show (if x ≤ tm.nextID + 1 then 1 else 0) = (if x ≤ tm.nextID then 1 else 0) + _
  by_cases hx : tm.nextID + 1 = x
  · rw [if_pos (by omega), if_neg (by omega), hx, List.count_singleton_self]
  · have hzero : [tm.nextID + 1].count x = 0 := List.count_eq_zero.mpr (by simpa using Ne.symm hx)
    rw [hzero, Nat.add_zero]
    exact if_congr (by omega) rfl rfl

/-! ### Ids in the checkbook -/

/-- How often an id is a key of the checkbook. -/
def TaskManager.listed (x : ℤ) (tm : TaskManager) : ℕ := tm.checkbook.keys.count x

theorem TaskManager.listed_enter (x id : ℤ) (cube : Cube) (tm : TaskManager) :
    (tm.enter id cube).listed x ≤ tm.listed x + [id].count x := by
  unfold TaskManager.listed TaskManager.enter
  rw [AList.keys_insert, List.count_cons, List.count_singleton]
  have hsub := (List.erase_sublist (a := id) (l := tm.checkbook.keys)).count_le x
  omega

theorem TaskManager.listed_deleteTask (x id : ℤ) (tm : TaskManager) :
    (tm.deleteTask id).listed x ≤ tm.listed x := by
  unfold TaskManager.deleteTask
  split
  · show (tm.checkbook.erase id).keys.count x ≤ _
    rw [AList.keys_erase]
    exact List.erase_sublist.count_le x
  · exact le_refl _

theorem TaskManager.listed_recordAssignment (x id : ℤ) (hostname : String) (tm : TaskManager) :
    (tm.recordAssignment id hostname).listed x = tm.listed x := by
  unfold TaskManager.recordAssignment
  split
  · rename_i e he
    show (tm.checkbook.insert id _).keys.count x = _
    rw [AList.keys_insert]
    have hmem : id ∈ tm.checkbook.keys :=
      AList.mem_keys.mp (AList.lookup_isSome.mp (by rw [he]; rfl))
    exact (List.perm_cons_erase hmem).symm.count_eq x
  · rfl

/-- Recording an assignment adds and removes no task. -/
theorem mem_recordAssignment {tm : TaskManager} {id : ℤ} {hostname : String} {x : ℤ} :
    x ∈ (tm.recordAssignment id hostname).checkbook ↔ x ∈ tm.checkbook := by
  rw [AList.mem_keys, AList.mem_keys, ← List.count_pos_iff, ← List.count_pos_iff]
  exact iff_of_eq (congrArg (0 < ·) (tm.listed_recordAssignment x id hostname))

/-- Entering a cube settles the id that was drawn for it. -/
theorem enqueueStep_listed {tm tm' : TaskManager} {e e' : EnqueueCubes} (x : ℤ)
    (h : enqueueStep tm e = some (tm', e')) :
    tm'.listed x + e'.drawn.count x + tm.born x ≤ tm.listed x + e.drawn.count x + tm'.born x := by
  rcases enqueueStep_cases h with ⟨cube, rest, rfl, rfl, rfl⟩ | ⟨id, cube, rest, rfl, -, rfl, rfl⟩ |
    ⟨id, cube, rest, rfl, rfl, rfl⟩ | ⟨task, rest, rfl, -, rfl, rfl⟩
  · rw [TaskManager.born_drawID]
    show tm.listed x + _ + _ ≤ tm.listed x + 0 + _
    simp only [EnqueueCubes.drawn]
    omega
  · have hle := tm.listed_enter x id cube
    have hborn : (tm.enter id cube).born x = tm.born x := rfl
    simp only [EnqueueCubes.drawn, List.count_nil]
    omega
  · exact le_refl _
  · exact le_refl _

/-- The count of an id in the checkbook and among the drawn ones. -/
abbrev System.listed (x : ℤ) (s : System) : ℕ :=
  s.total (fun m => m.taskManager.listed x) (fun p => p.call.drawn.count x)
    (fun h => h.call.drawn.count x)

theorem GetTaskMove.listed {s s' : MasterServer} {h h' : GetTask} (hm : GetTaskMove s h s' h')
    (x : ℤ) : s'.taskManager.listed x = s.taskManager.listed x ∧
      s'.taskManager.nextID = s.taskManager.nextID := by
  cases hm with
  | record w task hmu =>
      refine ⟨s.taskManager.listed_recordAssignment x task.taskId w.hostname, ?_⟩
      show (s.taskManager.recordAssignment task.taskId w.hostname).nextID = _
      unfold TaskManager.recordAssignment
      split <;> rfl
  | _ => exact ⟨rfl, rfl⟩

/-- **What a move of `SubmitResult` does to ids**: it makes a step of `EnqueueCubes`, or it deletes
at most one id from the checkbook and draws and sends none. -/
theorem SubmitMove.ids {s s' : MasterServer} {h h' : SubmitResult} (hm : SubmitMove s h s' h') :
    (∃ tm', enqueueStep s.taskManager h.call = some (tm', h'.call) ∧
        s' = { s with taskManager := tm' }) ∨
      ((∃ rest, h.call = .loop rest) ∧ (∃ rest, h'.call = .loop rest) ∧
        s'.taskManager.nextID = s.taskManager.nextID ∧
        s'.taskManager.taskQueue = s.taskManager.taskQueue ∧
        s'.history.handedOut = s.history.handedOut ∧
        ∀ x, s'.taskManager.listed x ≤ s.taskManager.listed x) := by
  cases hm with
  | accept r entry hmu hl =>
      have hdel : (s.taskManager.deleteTask r.taskId).nextID = s.taskManager.nextID ∧
          (s.taskManager.deleteTask r.taskId).taskQueue = s.taskManager.taskQueue := by
        unfold TaskManager.deleteTask
        split <;> exact ⟨rfl, rfl⟩
      exact Or.inr ⟨⟨_, rfl⟩, ⟨_, rfl⟩, hdel.1, hdel.2, rfl,
        fun x => s.taskManager.listed_deleteTask x r.taskId⟩
  | enqueue r cube newCubes e tm' e' he => exact Or.inl ⟨tm', he, rfl⟩
  | _ => exact Or.inr ⟨⟨_, rfl⟩, ⟨_, rfl⟩, rfl, rfl, rfl, fun x => le_refl _⟩

theorem SubmitMove.listed {s s' : MasterServer} {h h' : SubmitResult} (hm : SubmitMove s h s' h')
    (x : ℤ) : s'.taskManager.listed x + h'.call.drawn.count x + s.taskManager.born x ≤
      s.taskManager.listed x + h.call.drawn.count x + s'.taskManager.born x := by
  rcases hm.ids with ⟨tm', he, rfl⟩ | ⟨⟨rest, hc⟩, ⟨rest', hc'⟩, hnext, -, -, hle⟩
  · exact enqueueStep_listed x he
  · have hborn : s'.taskManager.born x = s.taskManager.born x := by
      unfold TaskManager.born
      rw [hnext]
    have hlex := hle x
    simp only [hc, hc', EnqueueCubes.drawn, List.count_nil]
    omega

/-- **Bounded by `born`.**  A count that only drawing an id can raise, and by one for that id, is at most
one, and nothing before the id is drawn. -/
theorem System.total_le_born {cfg : HeuristicConfig} {wt : WorkerTracker} {cnf : CNFData}
    {cubes : List Cube} {s : System} (hr : Reachable System.step (.init cfg wt cnf cubes) s) (x : ℤ)
    (F : MasterServer → ℕ) (f : EnqueueCubes → ℕ) (hloop : ∀ rest, f (.loop rest) = 0)
    (hinit : F (System.init cfg wt cnf cubes).server = 0)
    (hsolve : ∀ m p m' p', SolveMove m p m' p' → F m' + f p'.call + m.taskManager.born x ≤
      F m + f p.call + m'.taskManager.born x)
    (hget : ∀ m g m' g', GetTaskMove m g m' g' →
      F m' = F m ∧ m'.taskManager.nextID = m.taskManager.nextID)
    (hsubmit : ∀ m g m' g', SubmitMove m g m' g' → F m' + f g'.call + m.taskManager.born x ≤
      F m + f g.call + m'.taskManager.born x) :
    s.total F (fun p => f p.call) (fun h => f h.call) ≤ s.server.taskManager.born x := by
  refine hr.invariant (fun s => System.total F (fun p => f p.call) (fun h => f h.call) s ≤
    s.server.taskManager.born x) ?_ ?_
  · show F _ + f (.loop []) + 0 ≤ _
    rw [hinit, hloop]
    exact Nat.zero_le _
  intro s act s' hle _ hs
  refine System.total_le F (fun m => m.taskManager.born x) _ _ hs (fun _ => hloop _)
    (fun _ => hloop _) (fun q server p _ hp => hsolve _ _ _ _ hp) ?_ hle
  · intro h server h' _ hm
    cases hm with
    | getTask hg =>
        obtain ⟨hF, hnext⟩ := hget _ _ _ _ hg
        have hborn : server.taskManager.born x = s.server.taskManager.born x := by
          unfold TaskManager.born
          rw [hnext]
        simp only [Handler.call]
        omega
    | submitResult hm => exact hsubmit _ _ _ _ hm

theorem System.listed_le {cfg : HeuristicConfig} {wt : WorkerTracker} {cnf : CNFData}
    {cubes : List Cube} {s : System} (hr : Reachable System.step (.init cfg wt cnf cubes) s) (x : ℤ) :
    s.listed x ≤ s.server.taskManager.born x := by
  refine System.total_le_born hr x (fun m => m.taskManager.listed x) (fun e => e.drawn.count x)
    (fun _ => rfl) rfl ?_ (fun _ _ _ _ hg => hg.listed x) (fun _ _ _ _ hm => hm.listed x)
  intro m p m' p' hp
  cases hp with
  | load e tm' e' he => exact enqueueStep_listed x he
  | _ => exact le_refl _

/-- **Fresh ids.**  An id that a running `makePayload` has drawn is not in the checkbook yet. -/
theorem System.fresh {x : ℤ} {s : System} (hle : s.listed x ≤ s.server.taskManager.born x)
    (hx : x ∈ s.solve.call.drawn ∨ ∃ h ∈ s.handlers, x ∈ h.call.drawn) :
    x ∉ s.server.taskManager.checkbook := by
  have hone := hle.trans (TaskManager.born_le x _)
  rw [AList.mem_keys]
  intro hmem
  have hkey : 1 ≤ s.server.taskManager.listed x := List.count_pos_iff.mpr hmem
  simp only [System.listed, System.total] at hone
  rcases hx with hx | ⟨h, hh, hx⟩
  · have hpos := List.count_pos_iff.mpr hx
    omega
  · have hpos := List.count_pos_iff.mpr hx
    have hsum := List.single_le_sum (fun _ _ => Nat.zero_le _) _
      (List.mem_map_of_mem (f := fun h => h.call.drawn.count x) hh)
    omega

/-! ### Ids on the queue and handed out -/

/-- How often an id is on the queue or handed out. -/
def MasterServer.sent (x : ℤ) (s : MasterServer) : ℕ :=
  s.history.handedOut.count x + (s.taskManager.taskQueue.map (·.taskId)).count x

/-- Sending a payload puts its id on the queue; `f` counts the ids that are drawn. -/
theorem enqueueStep_sent_of {tm tm' : TaskManager} {e e' : EnqueueCubes} {x : ℤ} {f : TaskManager → ℕ}
    (hdraw : f tm.drawID = f tm + [tm.nextID + 1].count x)
    (hsame : ∀ tm', tm'.nextID = tm.nextID → f tm' = f tm) (h : enqueueStep tm e = some (tm', e')) :
    (tm'.taskQueue.map (·.taskId)).count x + e'.unsent.count x + f tm =
      (tm.taskQueue.map (·.taskId)).count x + e.unsent.count x + f tm' := by
  rcases enqueueStep_cases h with ⟨cube, rest, rfl, rfl, rfl⟩ | ⟨id, cube, rest, rfl, -, rfl, rfl⟩ |
    ⟨id, cube, rest, rfl, rfl, rfl⟩ | ⟨task, rest, rfl, -, rfl, rfl⟩
  · rw [hdraw]
    show (tm.taskQueue.map (·.taskId)).count x + _ + _ = (tm.taskQueue.map (·.taskId)).count x + 0 + _
    simp only [EnqueueCubes.unsent]
    omega
  · rw [hsame (tm.enter id cube) rfl]
    rfl
  · rw [hsame (tm.addActive 1) rfl]
    rfl
  · rw [hsame (tm.push task) rfl]
    show ((tm.taskQueue ++ [task]).map (·.taskId)).count x + 0 + f tm = _
    rw [List.map_append, List.count_append]
    rfl

theorem enqueueStep_sent {tm tm' : TaskManager} {e e' : EnqueueCubes} (x : ℤ)
    (h : enqueueStep tm e = some (tm', e')) :
    (tm'.taskQueue.map (·.taskId)).count x + e'.unsent.count x + tm.born x ≤
      (tm.taskQueue.map (·.taskId)).count x + e.unsent.count x + tm'.born x := by
  refine le_of_eq (enqueueStep_sent_of (tm.born_drawID x) (fun tm' hnext => ?_) h)
  rw [TaskManager.born, hnext]
  rfl

/-- The count of an id on its way from `makePayload` to a worker. -/
abbrev System.sent (x : ℤ) (s : System) : ℕ :=
  s.total (fun m => m.sent x) (fun p => p.call.unsent.count x) (fun h => h.call.unsent.count x)

theorem GetTaskMove.sent {s s' : MasterServer} {h h' : GetTask} (hm : GetTaskMove s h s' h')
    (x : ℤ) : s'.sent x = s.sent x ∧ s'.taskManager.nextID = s.taskManager.nextID := by
  cases hm with
  | dequeue w task rest hq =>
      refine ⟨?_, rfl⟩
      show (s.history.handedOut ++ [task.taskId]).count x + (rest.map (·.taskId)).count x = _
      unfold MasterServer.sent
      rw [hq, List.map_cons]
      simp only [List.count_append, List.count_cons, List.count_nil]
      omega
  | record w task hmu =>
      unfold MasterServer.sent
      show (_ + ((s.taskManager.recordAssignment task.taskId w.hostname).taskQueue.map _).count x = _) ∧ _
      unfold TaskManager.recordAssignment
      split <;> exact ⟨rfl, rfl⟩
  | _ => exact ⟨rfl, rfl⟩

theorem SubmitMove.sent {s s' : MasterServer} {h h' : SubmitResult} (hm : SubmitMove s h s' h')
    (x : ℤ) : s'.sent x + h'.call.unsent.count x + s.taskManager.born x ≤
      s.sent x + h.call.unsent.count x + s'.taskManager.born x := by
  rcases hm.ids with ⟨tm', he, rfl⟩ | ⟨⟨rest, hc⟩, ⟨rest', hc'⟩, hnext, hqueue, hout, -⟩
  · have hle := enqueueStep_sent x he
    simp only [MasterServer.sent]
    omega
  · simp only [MasterServer.sent, TaskManager.born, hc, hc', hnext, hqueue, hout]
    exact le_refl _

theorem System.sent_le {cfg : HeuristicConfig} {wt : WorkerTracker} {cnf : CNFData}
    {cubes : List Cube} {s : System} (hr : Reachable System.step (.init cfg wt cnf cubes) s) (x : ℤ) :
    s.sent x ≤ s.server.taskManager.born x := by
  refine System.total_le_born hr x (fun m => m.sent x) (fun e => e.unsent.count x) (fun _ => rfl) rfl ?_
    (fun _ _ _ _ hg => hg.sent x) (fun _ _ _ _ hm => hm.sent x)
  intro m p m' p' hp
  cases hp with
  | load e tm' e' he =>
      have hle := enqueueStep_sent x he
      simp only [MasterServer.sent, Solve.call]
      omega
  | _ => exact le_refl _

/-- **No id is handed out twice.** -/
theorem System.handedOut_nodup {cfg : HeuristicConfig} {wt : WorkerTracker} {cnf : CNFData}
    {cubes : List Cube} {s : System} (hr : Reachable System.step (.init cfg wt cnf cubes) s) :
    s.server.history.handedOut.Nodup := by
  refine List.nodup_iff_count_le_one.mpr fun x => ?_
  have hone := (System.sent_le hr x).trans (TaskManager.born_le x _)
  simp only [System.sent, System.total, MasterServer.sent] at hone
  omega

/-! ### Ids are positive -/

/-- The counter only grows. -/
theorem enqueueStep_nextID {tm tm' : TaskManager} {e e' : EnqueueCubes}
    (h : enqueueStep tm e = some (tm', e')) : tm.nextID ≤ tm'.nextID := by
  rcases enqueueStep_cases h with ⟨cube, rest, rfl, rfl, rfl⟩ | ⟨id, cube, rest, rfl, -, rfl, rfl⟩ |
    ⟨id, cube, rest, rfl, rfl, rfl⟩ | ⟨task, rest, rfl, -, rfl, rfl⟩
  · show tm.nextID ≤ tm.nextID + 1
    omega
  · exact le_refl _
  · exact le_refl _
  · exact le_refl _

theorem System.nextID_step {s s' : System} {act : Action} (hs : s.step act = some s') :
    s.server.taskManager.nextID ≤ s'.server.taskManager.nextID := by
  cases System.move_of_step hs with
  | @solve server p hp =>
      generalize s.solve = q at hp
      cases hp with
      | load e tm' e' he => exact enqueueStep_nextID he
      | _ => exact le_refl _
  | getTask w => exact le_refl _
  | submitResult r => exact le_refl _
  | @handler pre h post server h' c heq hm =>
      cases hm with
      | getTask hg => exact le_of_eq (hg.listed 0).2.symm
      | submitResult hm =>
          rcases hm.ids with ⟨tm', he, rfl⟩ | ⟨-, -, hnext, -⟩
          · exact enqueueStep_nextID he
          · exact le_of_eq hnext.symm

theorem System.nextID_nonneg {cfg : HeuristicConfig} {wt : WorkerTracker} {cnf : CNFData}
    {cubes : List Cube} {s : System} (hr : Reachable System.step (.init cfg wt cnf cubes) s) :
    0 ≤ s.server.taskManager.nextID :=
  hr.invariant (fun s => 0 ≤ s.server.taskManager.nextID) (le_refl 0)
    fun _ _ _ h _ hs => h.trans (System.nextID_step hs)

theorem System.listed_nonpos {cfg : HeuristicConfig} {wt : WorkerTracker} {cnf : CNFData}
    {cubes : List Cube} {s : System} (hr : Reachable System.step (.init cfg wt cnf cubes) s) {x : ℤ}
    (hx : x ≤ 0) : s.listed x ≤ 0 := by
  refine hr.invariant' (fun s => s.listed x ≤ 0) (le_refl 0) ?_
  intro s act s' hr hle _ hs
  have hborn : ∀ m : MasterServer, s.server.taskManager.nextID ≤ m.taskManager.nextID →
      m.taskManager.born x = 1 := fun m hm =>
    if_pos (hx.trans ((System.nextID_nonneg hr).trans hm))
  have hone := hborn s.server (le_refl _)
  refine System.total_le (fun m => m.taskManager.listed x) (fun _ => 0) _ _ hs
    (fun _ => rfl) (fun _ => rfl) ?_ ?_ hle
  · intro q server p _ hp
    cases hp with
    | load e tm' e' he =>
        have hmove := enqueueStep_listed x he
        have hone' := hborn { s.server with taskManager := tm' } (enqueueStep_nextID he)
        simp only [Solve.call] at hone hone' ⊢
        omega
    | _ => exact le_refl _
  · intro h server h' _ hm
    cases hm with
    | getTask hg => exact le_of_eq (congrArg (· + 0) (hg.listed x).1)
    | submitResult hm =>
        have hmove := hm.listed x
        rcases hm.ids with ⟨tm', he, rfl⟩ | ⟨-, -, hnext, -⟩
        · have hone' := hborn { s.server with taskManager := tm' } (enqueueStep_nextID he)
          simp only [Handler.call] at hmove hone' ⊢
          omega
        · have hone' := hborn server (le_of_eq hnext.symm)
          simp only [Handler.call]
          omega

/-- **Ids are positive.** -/
theorem System.ids_pos {cfg : HeuristicConfig} {wt : WorkerTracker} {cnf : CNFData}
    {cubes : List Cube} {s : System} (hr : Reachable System.step (.init cfg wt cnf cubes) s) {x : ℤ}
    (hx : x ∈ s.server.taskManager.checkbook) : 0 < x := by
  by_contra hneg
  have hzero := System.listed_nonpos hr (not_lt.mp hneg)
  have hkey : 0 < s.server.taskManager.listed x := List.count_pos_iff.mpr (AList.mem_keys.mp hx)
  simp only [System.listed, System.total] at hzero
  omega

end HydraSAT.Master
