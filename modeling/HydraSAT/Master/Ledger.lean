import HydraSAT.Master.Ids

/-!
# The ledger of cubes

Where the truth assignments are while the master runs: in the checkbook, in the counted cubes, or
with a handler that has removed a cube and not yet accounted for it.

* `System.regions a s`: how many of these hold the assignment `a`;
* `System.regions_eq`: as many as the initial cubes did, in every orderly run once `Solve` has loaded;
* `System.totalCount_eq`: the total is the sum over the counted cubes.

The proof conserves `System.share`, which charges a splitting handler with the children it still has
to enter; the children already entered are in the checkbook.
-/

namespace HydraSAT.Master

open HydraSAT.Lib

/-! ### Who holds an assignment -/

/-- The handler has removed a cube satisfied by `a` and not yet added its count or replaced it.  Of
a cube being split it holds what the children already entered do not cover. -/
def SubmitResult.holds (a : Assignment) : SubmitResult → Bool
  | .release _ _ cube => cubeTrue a cube
  | .updateWorker _ _ cube => cubeTrue a cube
  | .countTimeout _ cube => cubeTrue a cube
  | .split _ cube => cubeTrue a cube
  | .enqueue _ cube newCubes e =>
      cubeTrue a cube && !(newCubes.take (newCubes.length - e.pending.length)).any (cubeTrue a)
  | .addCount _ cube _ => cubeTrue a cube
  | _ => false

/-- `holds`, for any handler. -/
def Handler.holds (a : Assignment) : Handler → Bool
  | .getTask _ => false
  | .submitResult h => h.holds a

/-- How many times the assignment is accounted for: by cubes in the checkbook, by counted cubes, and
by handlers. -/
def System.regions (a : Assignment) (s : System) : ℕ :=
  hits a s.server.taskManager.outstanding + hits a (s.server.history.counted.map fun e => e.2.1) +
    s.handlers.countP (Handler.holds a)

/-- `Solve` has entered and sent all its cubes. -/
def Solve.loaded : Solve → Bool
  | .wait => true
  | .logResult => true
  | .returned _ => true
  | _ => false

/-- The result about to be accepted is a timeout or carries a decimal count. -/
def System.ParsesAt (s : System) (act : Action) : Prop :=
  ∀ i c r, act = .handler i c → s.handlers[i]? = some (.submitResult (.remove r)) →
    r.taskId ∈ s.server.taskManager.checkbook → r.timedOut = false →
    (setString10 r.count).isSome = true

/-- The cube about to be split is split without overflow. -/
def System.FitsAt (s : System) (act : Action) : Prop :=
  ∀ i c r cube, act = .handler i c → s.handlers[i]? = some (.submitResult (.split r cube)) →
    SplitFits s.server.taskManager.cnfData.clauses cube

/-- How many timeouts have been accepted. -/
def MasterServer.timeouts (s : MasterServer) : ℕ := s.history.accepted.countP fun r => r.timedOut

/-! ### The formula stays -/

theorem enqueueStep_cnfData {tm tm' : TaskManager} {e e' : EnqueueCubes}
    (h : enqueueStep tm e = some (tm', e')) : tm'.cnfData = tm.cnfData := by
  rcases enqueueStep_cases h with ⟨_, _, -, rfl, -⟩ | ⟨_, _, _, -, -, rfl, -⟩ |
    ⟨_, _, _, -, rfl, -⟩ | ⟨_, _, -, -, rfl, -⟩ <;> rfl

theorem HandlerMove.cnfData {s s' : MasterServer} {h h' : Handler} (hm : HandlerMove s h s' h') :
    s'.taskManager.cnfData = s.taskManager.cnfData := by
  cases hm with
  | getTask hg =>
      cases hg with
      | record w task _ =>
          show (s.taskManager.recordAssignment task.taskId w.hostname).cnfData = _
          unfold TaskManager.recordAssignment
          split <;> rfl
      | _ => rfl
  | submitResult hm =>
      cases hm with
      | accept r entry _ _ =>
          show (s.taskManager.deleteTask r.taskId).cnfData = _
          unfold TaskManager.deleteTask
          split <;> rfl
      | enqueue r cube newCubes e tm' e' he => exact enqueueStep_cnfData he
      | _ => rfl

theorem System.cnfData_step {s s' : System} {act : Action} (hs : s.step act = some s') :
    s'.server.taskManager.cnfData = s.server.taskManager.cnfData := by
  cases System.move_of_step hs with
  | solve hp =>
      generalize s.solve = q at hp
      cases hp with
      | load e tm' e' he => exact enqueueStep_cnfData he
      | _ => rfl
  | getTask w => rfl
  | submitResult r => rfl
  | handler c heq hm => exact hm.cnfData

/-! ### Timeouts -/

/-- Only the result of a timeout that is accepted adds to the timeouts. -/
theorem HandlerMove.timeouts {s s' : MasterServer} {h h' : Handler} (hm : HandlerMove s h s' h') :
    s'.timeouts = s.timeouts ∨ ∃ r, h = .submitResult (.remove r) ∧ r.timedOut = true ∧
      r.taskId ∈ s.taskManager.checkbook ∧ s'.timeouts = s.timeouts + 1 := by
  cases hm with
  | getTask hg => cases hg <;> exact .inl rfl
  | submitResult hm =>
      cases hm with
      | accept r entry hmu hl =>
          have happend : (s.accept r).timeouts = s.timeouts + [r].countP fun r => r.timedOut :=
            List.countP_append
          cases hto : r.timedOut with
          | false =>
              refine .inl (happend.trans ?_)
              rw [List.countP_singleton, hto]
              rfl
          | true =>
              refine .inr ⟨r, rfl, hto, AList.lookup_isSome.mp (by rw [hl]; rfl), happend.trans ?_⟩
              rw [List.countP_singleton, hto]
              rfl
      | _ => exact .inl rfl

theorem System.timeouts_step {s s' : System} {act : Action} (hs : s.step act = some s') :
    s'.server.timeouts = s.server.timeouts ∨ ∃ i c r, act = .handler i c ∧
      s.handlers[i]? = some (.submitResult (.remove r)) ∧ r.timedOut = true ∧
      r.taskId ∈ s.server.taskManager.checkbook ∧ s'.server.timeouts = s.server.timeouts + 1 := by
  cases System.move_of_step hs with
  | solve hp =>
      generalize s.solve = q at hp
      cases hp <;> exact .inl rfl
  | getTask w => exact .inl rfl
  | submitResult r => exact .inl rfl
  | @handler pre h post server h' c heq hm =>
      refine hm.timeouts.imp id ?_
      rintro ⟨r, rfl, hrest⟩
      exact ⟨pre.length, c, r, rfl, by simp [heq], hrest⟩

/-! ### Shares -/

theorem hits_map {β : Type*} (a : Assignment) (f : β → Cube) (xs : List β) :
    hits a (xs.map f) = (xs.map fun x => (cubeTrue a (f x)).toNat).sum := by
  induction xs with
  | nil => rfl
  | cons x xs ih => rw [List.map_cons, hits_cons, ih, List.map_cons, List.sum_cons]

/-- The cubes a handler answers for: the removed one, or the children not entered yet. -/
def SubmitResult.charge : SubmitResult → List Cube
  | .release _ _ cube => [cube]
  | .updateWorker _ _ cube => [cube]
  | .countTimeout _ cube => [cube]
  | .split _ cube => [cube]
  | .enqueue _ _ _ e => e.pending
  | .addCount _ cube _ => [cube]
  | _ => []

/-- `charge`, for any handler. -/
def Handler.charge : Handler → List Cube
  | .getTask _ => []
  | .submitResult h => h.charge

/-- The cubes `Solve` still has to enter. -/
def Solve.charge : Solve → List Cube
  | .broadcast cubes => cubes
  | .countTotal cubes => cubes
  | .load e => e.pending
  | _ => []

/-- The share of the server in an assignment. -/
def MasterServer.share (a : Assignment) (s : MasterServer) : ℕ :=
  hits a s.taskManager.outstanding + hits a (s.history.counted.map fun e => e.2.1)

/-- The conserved quantity. -/
abbrev System.share (a : Assignment) (s : System) : ℕ :=
  s.total (fun m => m.share a) (fun p => hits a p.charge) (fun h => hits a h.charge)

theorem TaskManager.hits_enter {a : Assignment} {tm : TaskManager} {id : ℤ} (cube : Cube)
    (hfresh : id ∉ tm.checkbook) :
    hits a (tm.enter id cube).outstanding = hits a [cube] + hits a tm.outstanding := by
  show hits a ((tm.checkbook.insert id ⟨cube, ""⟩).entries.map _) = _
  rw [hits_map, sum_insert _ hfresh, hits_singleton, TaskManager.outstanding, hits_map]

theorem TaskManager.hits_deleteTask {a : Assignment} {tm : TaskManager} {id : ℤ} {entry : TaskEntry}
    (hl : tm.checkbook.lookup id = some entry) :
    hits a tm.outstanding = hits a [entry.cube] + hits a (tm.deleteTask id).outstanding := by
  have hdel : (tm.deleteTask id).outstanding =
      (tm.checkbook.erase id).entries.map fun e => e.2.cube := by
    unfold TaskManager.deleteTask
    rw [hl]
    rfl
  rw [hdel, TaskManager.outstanding, hits_map, hits_map, sum_erase _ hl, hits_singleton]

theorem TaskManager.hits_recordAssignment (a : Assignment) (tm : TaskManager) (id : ℤ)
    (hostname : String) :
    hits a (tm.recordAssignment id hostname).outstanding = hits a tm.outstanding := by
  unfold TaskManager.recordAssignment
  split
  · rename_i e he
    simp only [TaskManager.outstanding, hits_map]
    exact sum_overwrite _ he rfl
  · rfl

/-- **`EnqueueCubes` moves shares into the checkbook.** -/
theorem enqueueStep_share {a : Assignment} {tm tm' : TaskManager} {e e' : EnqueueCubes}
    (hfresh : ∀ x ∈ e.drawn, x ∉ tm.checkbook) (h : enqueueStep tm e = some (tm', e')) :
    hits a tm'.outstanding + hits a e'.pending = hits a tm.outstanding + hits a e.pending := by
  rcases enqueueStep_cases h with ⟨cube, rest, rfl, rfl, rfl⟩ | ⟨id, cube, rest, rfl, -, rfl, rfl⟩ |
    ⟨id, cube, rest, rfl, rfl, rfl⟩ | ⟨task, rest, rfl, -, rfl, rfl⟩
  · rfl
  · rw [TaskManager.hits_enter cube (hfresh id (by simp [EnqueueCubes.drawn]))]
    simp only [EnqueueCubes.pending, hits_cons, hits_nil]
    omega
  · rfl
  · rfl

theorem GetTaskMove.share {a : Assignment} {s s' : MasterServer} {h h' : GetTask}
    (hm : GetTaskMove s h s' h') : s'.share a = s.share a := by
  cases hm with
  | record w task _ =>
      show hits a (s.taskManager.recordAssignment task.taskId w.hostname).outstanding + _ = _
      rw [TaskManager.hits_recordAssignment]
      rfl
  | _ => rfl

theorem MasterServer.share_addCount {a : Assignment} (s : MasterServer) (r : TaskResult) (cube : Cube)
    (val : ℤ) : (s.addCount r cube val).share a + hits a [] = s.share a + hits a [cube] := by
  show _ + hits a ((s.history.counted ++ [(r.taskId, cube, val)]).map fun e => e.2.1) + 0 = _
  rw [List.map_append, hits_append]
  show hits a s.taskManager.outstanding + (_ + hits a [cube]) =
    hits a s.taskManager.outstanding + _ + hits a [cube]
  omega

/-- What an accepted result must satisfy while its handler can still reach the sum. -/
def SubmitResult.Parses : SubmitResult → Prop
  | .release r _ _ => r.timedOut = false → (setString10 r.count).isSome = true
  | .updateWorker r _ _ => r.timedOut = false → (setString10 r.count).isSome = true
  | _ => True

/-- **A move of `SubmitResult` conserves the shares.** -/
theorem SubmitMove.share {a : Assignment} {s s' : MasterServer} {h h' : SubmitResult}
    (hm : SubmitMove s h s' h') (hsmall : SmallLits s.taskManager.cnfData.clauses)
    (hfresh : ∀ x ∈ h.call.drawn, x ∉ s.taskManager.checkbook) (hparse : h.Parses)
    (hfits : ∀ r cube, h = .split r cube → SplitFits s.taskManager.cnfData.clauses cube) :
    s'.share a + hits a h'.charge = s.share a + hits a h.charge := by
  cases hm with
  | accept r entry _ hl =>
      have hdel := @TaskManager.hits_deleteTask a _ _ _ hl
      show hits a (s.taskManager.deleteTask r.taskId).outstanding + _ + hits a [entry.cube] =
        hits a s.taskManager.outstanding + _ + 0
      rw [hdel]
      simp only [MasterServer.accept]
      omega
  | unparsed r hostname cube hto hval =>
      rw [SubmitResult.Parses, hval] at hparse
      exact absurd (hparse hto) (by decide)
  | split r cube entries horder =>
      show s.share a + hits a (splitCubeSmart cube entries) = s.share a + hits a [cube]
      rw [hits_splitCubeSmart a hsmall horder (hfits r cube rfl)]
  | enqueue r cube newCubes e tm' e' he =>
      have hshare : hits a tm'.outstanding + hits a e'.pending =
          hits a s.taskManager.outstanding + hits a e.pending := enqueueStep_share hfresh he
      simp only [MasterServer.share, SubmitResult.charge]
      omega
  | addMeasured r cube val _ => exact s.share_addCount r cube val
  | addUnmeasured r cube val _ => exact s.share_addCount r cube val
  | _ => rfl

/-! ### Runs -/

/-- `Parses`, for any handler. -/
def Handler.Parses : Handler → Prop
  | .getTask _ => True
  | .submitResult h => h.Parses

/-- What a splitting handler still has to enter ends the list of children, and the children
partition the removed cube. -/
def Handler.Splits : Handler → Prop
  | .submitResult (.enqueue _ cube newCubes e) =>
      e.pending <:+ newCubes ∧ ∀ a, hits a newCubes = hits a [cube]
  | _ => True

/-- Steps that accept parseable results and split without overflow. -/
def System.Orderly (s : System) (act : Action) : Prop := s.ParsesAt act ∧ s.FitsAt act

section Runs

variable {cfg : HeuristicConfig} {workers : WorkerTracker} {cnf : CNFData} {cubes : List Cube}
  {guard : System → Action → Prop} {s : System}

theorem System.cnfData_eq (hr : Reaches System.step guard (.init cfg workers cnf cubes) s) :
    s.server.taskManager.cnfData = cnf :=
  hr.invariant (fun s => s.server.taskManager.cnfData = cnf) rfl
    fun _ _ _ hcnf _ hs => (System.cnfData_step hs).trans hcnf

/-- Accepted results that are no timeouts carry decimal counts. -/
theorem System.parses (hr : Reaches System.step System.ParsesAt (.init cfg workers cnf cubes) s) :
    ∀ h ∈ s.handlers, h.Parses := by
  refine hr.invariant (fun s => ∀ h ∈ s.handlers, h.Parses) (by simp [System.init]) ?_
  intro s act s' hall hg hs
  refine System.handlers_step hs (fun _ => trivial) (fun _ => trivial) ?_ hall
  intro i c h server h' hact hi hp hm
  cases hm with
  | getTask _ => trivial
  | submitResult hm =>
      cases hm with
      | accept r entry _ hl =>
          exact hg i c r hact hi (AList.lookup_isSome.mp (by rw [hl]; rfl))
      | release r hostname cube => exact hp
      | _ => trivial

/-- What is left to enter stays the end of the list. -/
theorem enqueueStep_pending {tm tm' : TaskManager} {e e' : EnqueueCubes}
    (h : enqueueStep tm e = some (tm', e')) : e'.pending <:+ e.pending := by
  rcases enqueueStep_cases h with ⟨cube, rest, rfl, -, rfl⟩ | ⟨id, cube, rest, rfl, -, -, rfl⟩ |
    ⟨id, cube, rest, rfl, -, rfl⟩ | ⟨task, rest, rfl, -, -, rfl⟩
  · exact List.suffix_refl _
  · exact List.suffix_cons _ _
  · exact List.suffix_refl _
  · exact List.suffix_refl _

theorem System.splits (hsmall : SmallLits cnf.clauses)
    (hr : Reaches System.step System.FitsAt (.init cfg workers cnf cubes) s) :
    ∀ h ∈ s.handlers, h.Splits := by
  refine hr.invariant' (fun s => ∀ h ∈ s.handlers, h.Splits) (by simp [System.init]) ?_
  intro s act s' hr hall hg hs
  have hcnf := System.cnfData_eq hr
  refine System.handlers_step hs (fun _ => trivial) (fun _ => trivial) ?_ hall
  intro i c h server h' hact hi hp hm
  cases hm with
  | getTask _ => trivial
  | submitResult hm =>
      cases hm with
      | split r cube entries horder =>
          have hfits := hg i c r cube hact hi
          rw [hcnf] at horder hfits
          exact ⟨List.suffix_refl _, fun a => hits_splitCubeSmart a hsmall horder hfits⟩
      | enqueue r cube newCubes e tm' e' he => exact ⟨(enqueueStep_pending he).trans hp.1, hp.2⟩
      | _ => trivial

/-- **The shares are conserved.** -/
theorem System.share_eq (a : Assignment) (hsmall : SmallLits cnf.clauses)
    (hr : Reaches System.step System.Orderly (.init cfg workers cnf cubes) s) :
    s.share a = hits a cubes := by
  refine hr.invariant' (fun s => System.share a s = hits a cubes) ?_ ?_
  · show 0 + hits a cubes + 0 = hits a cubes
    omega
  · intro s act s' hr hshare hg hs
    have hcnf := System.cnfData_eq hr
    have hparses := System.parses (hr.mono fun _ _ h => h.1)
    have hle := fun x => System.listed_le hr.reachable x
    refine (System.total_step hs (fun _ => rfl) (fun _ => rfl) ?_ ?_).trans hshare
    · intro q server p _ hq hp
      cases hp with
      | load e tm' e' he =>
          have hdrawn : ∀ x ∈ e.drawn, x ∉ s.server.taskManager.checkbook := fun x hx =>
            System.fresh (hle x) (Or.inl (by rw [hq]; exact hx))
          have hmoved : hits a tm'.outstanding + hits a e'.pending =
              hits a s.server.taskManager.outstanding + hits a e.pending :=
            enqueueStep_share hdrawn he
          simp only [MasterServer.share, Solve.charge]
          omega
      | _ => rfl
    · intro i c h server h' hact hi hm
      have hmem := List.mem_of_getElem? hi
      cases hm with
      | getTask hg' => exact congrArg (· + 0) hg'.share
      | submitResult hm =>
          refine hm.share (by rw [hcnf]; exact hsmall) ?_ (hparses _ hmem) ?_
          · exact fun x hx => System.fresh (hle x) (Or.inr ⟨_, hmem, hx⟩)
          · rintro r cube rfl
            exact hg.2 i c r cube hact hi

/-- A handler holds an assignment exactly when it answers for a cube that the assignment
satisfies. -/
theorem Handler.holds_eq {a : Assignment} {h : Handler} (hsplits : h.Splits) :
    (h.holds a).toNat = hits a h.charge := by
  cases h with
  | getTask _ => rfl
  | submitResult h =>
      cases h with
      | enqueue r cube newCubes e =>
          obtain ⟨⟨entered, hnew⟩, hpart⟩ := hsplits
          have htake : newCubes.take (newCubes.length - e.pending.length) = entered := by
            rw [← hnew, List.length_append, Nat.add_sub_cancel, List.take_left]
          have hsum : hits a entered + hits a e.pending = (cubeTrue a cube).toNat := by
            rw [← hits_append, hnew, hpart a, hits_singleton]
          show (cubeTrue a cube && !(newCubes.take _).any (cubeTrue a)).toNat = hits a e.pending
          rw [htake]
          by_cases hany : entered.any (cubeTrue a) = true
          · have hpos : 0 < hits a entered :=
              List.countP_pos_iff.mpr (List.any_eq_true.mp hany)
            have hle := Bool.toNat_le (cubeTrue a cube)
            rw [hany, Bool.not_true, Bool.and_false, Bool.toNat_false]
            omega
          · have hzero : hits a entered = 0 :=
              List.countP_eq_zero.mpr fun c hc hct => hany (List.any_eq_true.mpr ⟨c, hc, hct⟩)
            rw [Bool.not_eq_true] at hany
            rw [hany, Bool.not_false, Bool.and_true]
            omega
      | release r hostname cube => exact (hits_singleton cube).symm
      | updateWorker r hostname cube => exact (hits_singleton cube).symm
      | countTimeout r cube => exact (hits_singleton cube).symm
      | split r cube => exact (hits_singleton cube).symm
      | addCount r cube val => exact (hits_singleton cube).symm
      | _ => rfl

theorem System.countP_holds {a : Assignment} {hs : List Handler} (hall : ∀ h ∈ hs, h.Splits) :
    hs.countP (Handler.holds a) = (hs.map fun h => hits a h.charge).sum := by
  induction hs with
  | nil => rfl
  | cons h hs ih =>
      have hhead := @Handler.holds_eq a h (hall h List.mem_cons_self)
      rw [List.countP_cons, ih fun g hg => hall g (List.mem_cons_of_mem h hg), List.map_cons,
        List.sum_cons, ← hhead, Nat.add_comm]
      cases h.holds a <;> rfl

theorem Solve.charge_loaded {p : Solve} (hloaded : p.loaded = true) : p.charge = [] := by
  cases p with
  | wait => rfl
  | logResult => rfl
  | returned count => rfl
  | broadcast cubes => exact absurd hloaded Bool.false_ne_true
  | countTotal cubes => exact absurd hloaded Bool.false_ne_true
  | load e => exact absurd hloaded Bool.false_ne_true

/-- **Exactly one region holds every assignment**, once the initial partition is loaded. -/
theorem System.regions_eq (a : Assignment) (hsmall : SmallLits cnf.clauses)
    (hr : Reaches System.step System.Orderly (.init cfg workers cnf cubes) s)
    (hloaded : s.solve.loaded = true) : s.regions a = hits a cubes := by
  have hsplits := System.splits hsmall (hr.mono fun _ _ h => h.2)
  rw [← System.share_eq a hsmall hr, System.regions, System.countP_holds hsplits]
  show _ = s.server.share a + hits a s.solve.charge + _
  rw [Solve.charge_loaded hloaded]
  rfl

/-! ### The total -/

theorem HandlerMove.totalCount {s s' : MasterServer} {h h' : Handler} (hm : HandlerMove s h s' h')
    (heq : s.totalCount = (s.history.counted.map fun e => e.2.2).sum) :
    s'.totalCount = (s'.history.counted.map fun e => e.2.2).sum := by
  have hadd : ∀ r cube val, (s.addCount r cube val).totalCount =
      ((s.addCount r cube val).history.counted.map fun e => e.2.2).sum := by
    intro r cube val
    show s.totalCount + val = ((s.history.counted ++ [(r.taskId, cube, val)]).map fun e => e.2.2).sum
    rw [List.map_append, List.sum_append, heq]
    simp
  cases hm with
  | getTask hg => cases hg <;> exact heq
  | submitResult hm =>
      cases hm with
      | addMeasured r cube val _ => exact hadd r cube val
      | addUnmeasured r cube val _ => exact hadd r cube val
      | _ => exact heq

/-- **The total is the sum over the counted cubes.** -/
theorem System.totalCount_eq (hr : Reaches System.step guard (.init cfg workers cnf cubes) s) :
    s.server.totalCount = (s.server.history.counted.map fun e => e.2.2).sum := by
  refine hr.invariant
    (fun s => s.server.totalCount = (s.server.history.counted.map fun e => e.2.2).sum) rfl ?_
  intro s act s' heq _ hs
  cases System.move_of_step hs with
  | solve hp =>
      generalize s.solve = q at hp
      cases hp <;> exact heq
  | getTask w => exact heq
  | submitResult r => exact heq
  | handler c hpos hm => exact hm.totalCount heq

end Runs

/-! ### Loading -/

/-- The state after `Solve` has taken one more cube from its list. -/
def System.loadTurn (s : System) (cube : Cube) (rest : List Cube) : System :=
  { s with
    server := { s.server with
      taskManager := (((s.server.taskManager.drawID.enter (s.server.taskManager.nextID + 1)
        cube).addActive 1).push (s.server.taskManager.payload (s.server.taskManager.nextID + 1) cube)) }
    solve := .load (.loop rest) }

/-- One turn of the loop is four steps. -/
theorem System.exec_loadTurn {s : System} {cube : Cube} {rest : List Cube}
    (hsolve : s.solve = .load (.loop (cube :: rest))) (hmu : s.server.taskManager.mu = false)
    (hroom : s.server.taskManager.taskQueue.length < queueCapacity) :
    exec System.step s [.solve, .solve, .solve, .solve] = some (s.loadTurn cube rest) := by
  simp [exec, System.step, hsolve, Solve.step, enqueueStep, TaskManager.drawID, TaskManager.enter,
    TaskManager.addActive, TaskManager.payload, hmu, hroom, System.loadTurn]

/-- `Solve` alone loads any list of cubes that the queue has room for. -/
theorem System.loads {guard : System → Action → Prop} (hguard : ∀ s, guard s .solve)
    (cubes : List Cube) (s : System) (hsolve : s.solve = .load (.loop cubes))
    (hmu : s.server.taskManager.mu = false)
    (hroom : s.server.taskManager.taskQueue.length + cubes.length ≤ queueCapacity) :
    ∃ s', Reaches System.step guard s s' ∧ s'.solve = .wait := by
  induction cubes generalizing s with
  | nil =>
      refine ⟨{ s with solve := .wait }, .next .start (hguard _) ?_, rfl⟩
      simp [System.step, hsolve, Solve.step]
  | cons cube rest ih =>
      rw [List.length_cons] at hroom
      have hturn : Reaches System.step guard s (s.loadTurn cube rest) := by
        refine Reaches.of_exec ?_ (System.exec_loadTurn hsolve hmu (by omega))
        intro s a ha
        obtain rfl : a = .solve := by simpa using ha
        exact hguard s
      have hlen : (s.loadTurn cube rest).server.taskManager.taskQueue.length =
          s.server.taskManager.taskQueue.length + 1 := List.length_append
      obtain ⟨s', hrest, hwait⟩ := ih (s.loadTurn cube rest) rfl hmu (by omega)
      exact ⟨s', hturn.trans hrest, hwait⟩

/-- As `loads`, from the start. -/
theorem System.init_loads {guard : System → Action → Prop} (hguard : ∀ s, guard s .solve)
    (cfg : HeuristicConfig) (workers : WorkerTracker) (cnf : CNFData) (cubes : List Cube)
    (hroom : cubes.length ≤ queueCapacity) :
    ∃ s, Reaches System.step guard (.init cfg workers cnf cubes) s ∧ s.solve = .wait := by
  obtain ⟨s₂, htwo⟩ : ∃ s₂, exec System.step (.init cfg workers cnf cubes) [.solve, .solve] = some s₂ ∧
      s₂.solve = .load (.loop cubes) ∧ s₂.server.taskManager = .new cnf := ⟨_, rfl, rfl, rfl⟩
  obtain ⟨hexec, hsolve, htm⟩ := htwo
  have hstart : Reaches System.step guard (.init cfg workers cnf cubes) s₂ := by
    refine Reaches.of_exec ?_ hexec
    intro s a ha
    obtain rfl : a = .solve := by simpa using ha
    exact hguard s
  obtain ⟨s, hrest, hwait⟩ := System.loads hguard cubes s₂ hsolve (by rw [htm]; rfl) (by
    rw [htm]
    show 0 + cubes.length ≤ queueCapacity
    omega)
  exact ⟨s, hstart.trans hrest, hwait⟩

theorem System.orderly_solve (s : System) : s.Orderly .solve :=
  ⟨fun _ _ _ h => Action.noConfusion h, fun _ _ _ _ h => Action.noConfusion h⟩

/-- One clause over seven variables. -/
def sevenVars : CNFData :=
  { numVars := 7, numClauses := 1, body := "1 2 3 4 5 6 7 0\n", clauses := [[1, 2, 3, 4, 5, 6, 7]] }

end HydraSAT.Master
