import HydraSAT.Master.Completion
import HydraSAT.Worker.Solve

/-!
# Settling an accepted result

What becomes of a task that `SubmitResult` has removed.  The other handlers, `Solve` and the workers
may change the server between any two steps of a handler; `System.follow` collects the steps that one
handler takes in a run, each as the server before it and after it.

* `Settles`: these steps together add the number of the result to the total, or enter and send the two
  children of the cube;
* `SubmitMove.ahead`: each step does its part of what is ahead of the handler;
* `System.settles_iff`: a handler that returns has settled its result exactly if that is a timeout or
  carries a number;
* `settled_iff`: when a cube leaves the computation through a reported count or a split.
-/

namespace HydraSAT.Master

open HydraSAT.Lib HydraSAT.Worker

/-! ### What the steps of a handler do -/

/-- A step of a handler: the server before it and after it. -/
structure ServerStep where
  before : MasterServer
  after : MasterServer

namespace ServerStep

/-- What the step adds to the total. -/
def gain (p : ServerStep) : ℤ := p.after.totalCount - p.before.totalCount

/-- The step takes the cube out of the checkbook. -/
def Removes (id : ℤ) (cube : Cube) (p : ServerStep) : Prop :=
  (∃ entry, p.before.taskManager.checkbook.lookup id = some entry ∧ entry.cube = cube) ∧
    p.after.taskManager.checkbook = p.before.taskManager.checkbook.erase id

/-- The step enters the cube in the checkbook under a new id. -/
def Enters (id : ℤ) (cube : Cube) (p : ServerStep) : Prop :=
  id ∉ p.before.taskManager.checkbook ∧
    p.after.taskManager.checkbook = p.before.taskManager.checkbook.insert id ⟨cube, ""⟩

/-- The step sends the cube on the queue under this id. -/
def Sends (id : ℤ) (cube : Cube) (p : ServerStep) : Prop :=
  ∃ task, task.taskId = id ∧ task.literals = cube ∧
    p.after.taskManager.taskQueue = p.before.taskManager.taskQueue ++ [task]

/-- The step enters nothing in the checkbook. -/
def EntersNothing (p : ServerStep) : Prop :=
  ∀ id ∈ p.after.taskManager.checkbook, id ∈ p.before.taskManager.checkbook

end ServerStep

/-- What the steps add to the total. -/
def gained (steps : List ServerStep) : ℤ := (steps.map ServerStep.gain).sum

/-- The cube is entered and sent, under one id. -/
def Enqueued (cube : Cube) (steps : List ServerStep) : Prop :=
  ∃ id, (∃ p ∈ steps, p.Enters id cube) ∧ ∃ p ∈ steps, p.Sends id cube

/-- The number of the result is added, and nothing is entered. -/
def Counted (r : TaskResult) (steps : List ServerStep) : Prop :=
  (∃ val, setString10 r.count = some val ∧ gained steps = val) ∧ ∀ p ∈ steps, p.EntersNothing

/-- Nothing is added, and both children of a split of the cube are enqueued. -/
def SplitUp (cnf : CNFData) (cube : Cube) (steps : List ServerStep) : Prop :=
  gained steps = 0 ∧ ∃ entries, MapOrder cnf.clauses entries ∧
    ∀ child ∈ splitCubeSmart cube entries, Enqueued child steps

/-- The number of the result is added, or the cube is replaced by its children. -/
def Settles (cnf : CNFData) (r : TaskResult) (cube : Cube) (steps : List ServerStep) : Prop :=
  Counted r steps ∨ SplitUp cnf cube steps

/-- Nothing is added and nothing entered. -/
def Idle (steps : List ServerStep) : Prop := gained steps = 0 ∧ ∀ p ∈ steps, p.EntersNothing

/-- What the handler of an accepted result does in all. -/
def Settlement (cnf : CNFData) (r : TaskResult) (cube : Cube) (steps : List ServerStep) : Prop :=
  if r.timedOut then SplitUp cnf cube steps
  else match setString10 r.count with
    | some val => gained steps = val ∧ ∀ p ∈ steps, p.EntersNothing
    | none => Idle steps

/-- What a handler at this point still does before it returns `true`. -/
def SubmitResult.Ahead (cnf : CNFData) (steps : List ServerStep) : SubmitResult → Prop
  | .remove r => ∃ cube, (∃ p ∈ steps, p.Removes r.taskId cube) ∧ Settlement cnf r cube steps
  | .release r _ cube => Settlement cnf r cube steps
  | .updateWorker r _ cube => Settlement cnf r cube steps
  | .countTimeout _ cube => SplitUp cnf cube steps
  | .split _ cube => SplitUp cnf cube steps
  | .enqueue _ _ _ (.loop rest) => gained steps = 0 ∧ ∀ c ∈ rest, Enqueued c steps
  | .enqueue _ _ _ (.insert _ cube rest) => gained steps = 0 ∧ ∀ c ∈ cube :: rest, Enqueued c steps
  | .enqueue _ _ _ (.activate id cube rest) =>
      gained steps = 0 ∧ (∃ p ∈ steps, p.Sends id cube) ∧ ∀ c ∈ rest, Enqueued c steps
  | .enqueue _ _ _ (.send task rest) =>
      gained steps = 0 ∧ (∃ p ∈ steps, p.Sends task.taskId task.literals) ∧
        ∀ c ∈ rest, Enqueued c steps
  | .addCount _ _ val => gained steps = val ∧ ∀ p ∈ steps, p.EntersNothing
  | .returned false => False
  | _ => Idle steps

/-! ### One more step in front -/

section Cons

variable {cnf : CNFData} {cube : Cube} {p : ServerStep} {steps : List ServerStep}

theorem gained_cons : gained (p :: steps) = p.gain + gained steps := List.sum_cons

theorem gained_zero (hp : p.gain = 0) : gained (p :: steps) = gained steps := by
  rw [gained_cons, hp, zero_add]

/-- The total and the checkbook are as they were. -/
structure ServerStep.Still (p : ServerStep) : Prop where
  gain : p.gain = 0
  entersNothing : p.EntersNothing

theorem ServerStep.still {s s' : MasterServer} (htotal : s'.totalCount = s.totalCount)
    (hbook : s'.taskManager.checkbook = s.taskManager.checkbook) : (ServerStep.mk s s').Still :=
  ⟨sub_eq_zero.mpr htotal, fun id hid => by rwa [← show _ = _ from hbook]⟩

theorem Idle.cons (hp : p.Still) (h : Idle steps) : Idle (p :: steps) :=
  ⟨(gained_zero hp.gain).trans h.1, List.forall_mem_cons.mpr ⟨hp.entersNothing, h.2⟩⟩

theorem Enqueued.cons (h : Enqueued cube steps) : Enqueued cube (p :: steps) := by
  obtain ⟨id, ⟨q, hq, henters⟩, q', hq', hsends⟩ := h
  exact ⟨id, ⟨q, List.mem_cons_of_mem p hq, henters⟩, q', List.mem_cons_of_mem p hq', hsends⟩

theorem SplitUp.cons (hp : p.gain = 0) (h : SplitUp cnf cube steps) :
    SplitUp cnf cube (p :: steps) := by
  obtain ⟨hgained, entries, horder, hall⟩ := h
  exact ⟨(gained_zero hp).trans hgained, entries, horder, fun c hc => (hall c hc).cons⟩

theorem Settlement.cons {r : TaskResult} (hp : p.Still) (h : Settlement cnf r cube steps) :
    Settlement cnf r cube (p :: steps) := by
  unfold Settlement at h ⊢
  split at h
  · rename_i hto
    rw [if_pos hto]
    exact h.cons hp.gain
  · rename_i hto
    rw [if_neg hto]
    split at h
    · exact ⟨(gained_zero hp.gain).trans h.1, List.forall_mem_cons.mpr ⟨hp.entersNothing, h.2⟩⟩
    · exact h.cons hp

end Cons

/-! ### The steps of a handler -/

/-- One step of `EnqueueCubes` does its part. -/
theorem enqueueStep_ahead {cnf : CNFData} {s : MasterServer} {tm' : TaskManager} {r : TaskResult}
    {cube : Cube} {newCubes : List Cube} {e e' : EnqueueCubes} {steps : List ServerStep}
    (he : enqueueStep s.taskManager e = some (tm', e'))
    (hfresh : ∀ x ∈ e.drawn, x ∉ s.taskManager.checkbook)
    (hrest : (SubmitResult.enqueue r cube newCubes e').Ahead cnf steps) :
    (SubmitResult.enqueue r cube newCubes e).Ahead cnf
      (⟨s, { s with taskManager := tm' }⟩ :: steps) := by
  have hgain : (ServerStep.mk s { s with taskManager := tm' }).gain = 0 := sub_self _
  rcases enqueueStep_cases he with ⟨c, rest, rfl, -, rfl⟩ | ⟨id, c, rest, rfl, -, rfl, rfl⟩ |
    ⟨id, c, rest, rfl, -, rfl⟩ | ⟨task, rest, rfl, -, rfl, rfl⟩
  · exact ⟨(gained_zero hgain).trans hrest.1, fun x hx => (hrest.2 x hx).cons⟩
  · obtain ⟨hgained, ⟨p, hp, hsends⟩, hall⟩ := hrest
    refine ⟨(gained_zero hgain).trans hgained, fun x hx => ?_⟩
    rcases List.mem_cons.mp hx with rfl | hx
    · exact ⟨id, ⟨_, List.mem_cons_self, hfresh id List.mem_cons_self, rfl⟩, p,
        List.mem_cons_of_mem _ hp, hsends⟩
    · exact (hall x hx).cons
  · obtain ⟨hgained, ⟨p, hp, hsends⟩, hall⟩ := hrest
    exact ⟨(gained_zero hgain).trans hgained, ⟨p, List.mem_cons_of_mem _ hp, hsends⟩,
      fun x hx => (hall x hx).cons⟩
  · exact ⟨(gained_zero hgain).trans hrest.1, ⟨_, List.mem_cons_self, task, rfl, rfl, rfl⟩,
      fun x hx => (hrest.2 x hx).cons⟩

/-- **The removal.**  The cube that is found is taken out, and the rest follows. -/
theorem accept_ahead {cnf : CNFData} {s : MasterServer} {r : TaskResult} {entry : TaskEntry}
    {steps : List ServerStep} (hl : s.taskManager.checkbook.lookup r.taskId = some entry)
    (hrest : Settlement cnf r entry.cube steps) :
    (SubmitResult.remove r).Ahead cnf (⟨s, s.accept r⟩ :: steps) := by
  have hbook : (s.accept r).taskManager.checkbook = s.taskManager.checkbook.erase r.taskId := by
    show (s.taskManager.deleteTask r.taskId).checkbook = _
    unfold TaskManager.deleteTask
    rw [hl]
  have hstill : (ServerStep.mk s (s.accept r)).Still := by
    refine ⟨sub_self _, fun id hid => ?_⟩
    have hmem : id ∈ s.taskManager.checkbook.erase r.taskId := by rw [← hbook]; exact hid
    exact (AList.mem_erase.mp hmem).2
  exact ⟨entry.cube, ⟨_, List.mem_cons_self, ⟨entry, hl, rfl⟩, hbook⟩, hrest.cons hstill⟩

/-- **Each step does its part of what is ahead.** -/
theorem SubmitMove.ahead {cnf : CNFData} {s s' : MasterServer} {h h' : SubmitResult}
    {steps : List ServerStep} (hm : SubmitMove s h s' h') (hcnf : s.taskManager.cnfData = cnf)
    (hfresh : ∀ x ∈ h.call.drawn, x ∉ s.taskManager.checkbook) (hrest : h'.Ahead cnf steps) :
    h.Ahead cnf (⟨s, s'⟩ :: steps) := by
  cases hm with
  | accept r entry _ hl => exact accept_ahead hl hrest
  | reject r _ _ => exact hrest.elim
  | release r hostname cube => exact hrest.cons (ServerStep.still rfl rfl)
  | timedOut r hostname cube hto =>
      have hsplit : SplitUp cnf cube steps := hrest
      show Settlement cnf r cube _
      rw [Settlement, if_pos hto]
      exact hsplit.cons (sub_self _)
  | parsed r hostname cube val hto hval =>
      obtain ⟨hgained, hnone⟩ := hrest
      have hstill : (ServerStep.mk s (s.updateWorker r hostname)).Still := ServerStep.still rfl rfl
      show Settlement cnf r cube _
      rw [Settlement, if_neg (by simp [hto]), hval]
      exact ⟨(gained_zero hstill.gain).trans hgained,
        List.forall_mem_cons.mpr ⟨hstill.entersNothing, hnone⟩⟩
  | unparsed r hostname cube hto hval =>
      have hidle : Idle steps := hrest
      show Settlement cnf r cube _
      rw [Settlement, if_neg (by simp [hto]), hval]
      exact hidle.cons (ServerStep.still rfl rfl)
  | countTimeout r cube => exact hrest.cons (sub_self _)
  | split r cube entries horder =>
      rw [hcnf] at horder
      obtain ⟨hgained, hall⟩ := hrest
      exact ⟨(gained_zero (sub_self _)).trans hgained, entries, horder, fun c hc => (hall c hc).cons⟩
  | enqueue r cube newCubes e tm' e' he => exact enqueueStep_ahead he hfresh hrest
  | enqueued r cube newCubes =>
      exact ⟨(gained_zero (sub_self _)).trans hrest.1, fun c hc => absurd hc List.not_mem_nil⟩
  | addMeasured r cube val _ =>
      exact ⟨by rw [gained_cons, hrest.1]; exact (add_zero _).trans (add_sub_cancel_left _ _),
        List.forall_mem_cons.mpr ⟨fun _ hid => hid, hrest.2⟩⟩
  | addUnmeasured r cube val _ =>
      exact ⟨by rw [gained_cons, hrest.1]; exact (add_zero _).trans (add_sub_cancel_left _ _),
        List.forall_mem_cons.mpr ⟨fun _ hid => hid, hrest.2⟩⟩
  | _ => exact Idle.cons (ServerStep.still rfl rfl) hrest

/-! ### Following one handler through a run -/

/-- The steps that handler `i` takes in the execution of a schedule, and the state at its end. -/
def System.follow (i : ℕ) : System → List Action → Option (List ServerStep × System)
  | s, [] => some ([], s)
  | s, act :: acts => (s.step act).bind fun s' => (follow i s' acts).map fun p =>
      match act with
      | .handler j _ => (if j = i then ⟨s.server, s'.server⟩ :: p.1 else p.1, p.2)
      | _ => p

variable {cfg : HeuristicConfig} {workers : WorkerTracker} {cnf : CNFData} {cubes : List Cube}

/-- **A handler that returns `true` has done all that was ahead.** -/
theorem System.ahead {i : ℕ} {acts : List Action} {s₁ s₂ : System} {h : SubmitResult}
    {steps : List ServerStep} (hr : Reachable System.step (.init cfg workers cnf cubes) s₁)
    (hstart : s₁.handlers[i]? = some (.submitResult h))
    (hrun : System.follow i s₁ acts = some (steps, s₂))
    (hend : s₂.handlers[i]? = some (.submitResult (.returned true))) : h.Ahead cnf steps := by
  induction acts generalizing s₁ h steps with
  | nil =>
      obtain ⟨rfl, rfl⟩ := Prod.mk.inj (Option.some.inj hrun)
      rw [hstart] at hend
      obtain rfl := Handler.submitResult.inj (Option.some.inj hend)
      exact ⟨rfl, fun p hp => absurd hp List.not_mem_nil⟩
  | cons act acts ih =>
      obtain ⟨s', hs, hrest⟩ := Option.bind_eq_some_iff.mp hrun
      obtain ⟨⟨steps', s₂'⟩, hfollow, hpair⟩ := Option.map_eq_some_iff.mp hrest
      have hr' := Reaches.next hr trivial hs
      rcases System.handler_step hs hstart with ⟨hstay, hother⟩ | ⟨c, h', rfl, hmoved, hm⟩
      · -- another thread takes the step
        have hsame : (steps', s₂') = (steps, s₂) := by
          cases act with
          | handler j c =>
              have hj : j ≠ i := fun hj => hother c (by rw [hj])
              simpa [hj] using hpair
          | _ => exact hpair
        obtain ⟨rfl, rfl⟩ := Prod.mk.inj hsame
        exact ih hr' hstay hfollow
      · obtain ⟨rfl, rfl⟩ : ⟨s₁.server, s'.server⟩ :: steps' = steps ∧ s₂' = s₂ := by
          simpa using hpair
        cases hm with
        | submitResult hm =>
            refine hm.ahead (System.cnfData_eq hr) (fun x hx => ?_) (ih hr' hmoved hfollow)
            exact System.fresh (System.listed_le hr x) (.inr ⟨_, List.mem_of_getElem? hstart, hx⟩)

/-- **When an accepted result is settled**: exactly if it is a timeout or carries a number. -/
theorem Settlement.settles_iff {r : TaskResult} {cube : Cube} {steps : List ServerStep}
    (h : Settlement cnf r cube steps) :
    Settles cnf r cube steps ↔ r.timedOut = true ∨ (setString10 r.count).isSome = true := by
  unfold Settlement at h
  by_cases hto : r.timedOut = true
  · rw [if_pos hto] at h
    exact iff_of_true (Or.inr h) (Or.inl hto)
  · rw [if_neg hto] at h
    cases hval : setString10 r.count with
    | some val =>
        rw [hval] at h
        exact iff_of_true (Or.inl ⟨⟨val, hval, h.1⟩, h.2⟩) (Or.inr rfl)
    | none =>
        rw [hval] at h
        refine iff_of_false ?_ (by simp [hto])
        rintro (⟨⟨val, hsome, -⟩, -⟩ | ⟨-, entries, -, hall⟩)
        · rw [hval] at hsome
          cases hsome
        · -- a child that was entered was in the checkbook before
          obtain ⟨id, ⟨p, hp, hnew, hafter⟩, -⟩ :=
            hall (cube ++ [branchVar cube entries]) List.mem_cons_self
          refine hnew (h.2 p hp id ?_)
          rw [hafter]
          exact (AList.mem_insert _).mpr (Or.inl rfl)

/-- **From the call to the return.**  A handler that returns `true` has taken the cube of its result out of
the checkbook, and has settled the result exactly if that is a timeout or carries a number. -/
theorem System.settles_iff {i : ℕ} {acts : List Action} {s₁ s₂ : System} {r : TaskResult}
    {steps : List ServerStep} (hr : Reachable System.step (.init cfg workers cnf cubes) s₁)
    (hstart : s₁.handlers[i]? = some (.submitResult (.remove r)))
    (hrun : System.follow i s₁ acts = some (steps, s₂))
    (hend : s₂.handlers[i]? = some (.submitResult (.returned true))) :
    ∃ cube, (∃ p ∈ steps, p.Removes r.taskId cube) ∧
      (Settles cnf r cube steps ↔ r.timedOut = true ∨ (setString10 r.count).isSome = true) := by
  obtain ⟨cube, hremoves, hsettlement⟩ := System.ahead hr hstart hrun hend
  exact ⟨cube, hremoves, hsettlement.settles_iff⟩

/-! ### Reported counts and splits -/

/-- A ganak that reports two models. -/
def twoModels (_ : String) (_ : Option ℤ) : GanakOutcome := .exited (renderLines (countReport 2).lines)

/-- The first task of `sevenVars`. -/
def firstTask : TaskPayload :=
  { taskId := 1, numVars := 7, numClauses := 1, formulaBody := sevenVars.body, literals := [7]
    timeoutSec := 30 }

/-- One worker fetches the first of two cubes and submits its count. -/
def oneSubmitted : List Action :=
  [List.replicate 11 .solve, [.getTask workerA], List.replicate 6 (.handler 0 .go),
    [.submitResult (answer 1 "2")]].flatten

/-- The handler is called with this result. -/
def Handler.submits (r : TaskResult) : Handler → Bool
  | .submitResult (.remove r') => decide (r' = r)
  | _ => false

/-- The handler has accepted its result and returned. -/
def Handler.accepted : Handler → Bool
  | .submitResult (.returned ok) => ok
  | _ => false

theorem Handler.eq_of_submits {r : TaskResult} {h : Option Handler}
    (hs : h.any (Handler.submits r) = true) : h = some (.submitResult (.remove r)) := by
  obtain ⟨h, rfl, hself⟩ := (Option.any_eq_true _ _).mp hs
  unfold Handler.submits at hself
  split at hself
  · rw [of_decide_eq_true hself]
  · cases hself

theorem Handler.eq_of_accepted {h : Option Handler} (ha : h.any Handler.accepted = true) :
    h = some (.submitResult (.returned true)) := by
  obtain ⟨h, rfl, hself⟩ := (Option.any_eq_true _ _).mp ha
  unfold Handler.accepted at hself
  split at hself
  · rw [hself]
  · cases hself

end HydraSAT.Master
