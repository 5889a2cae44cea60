import HydraSAT.Lib.Pool
import HydraSAT.Lib.Transition
import HydraSAT.Worker.Solve

/-!
# The solver process and the timeout listeners

`SATWorker._solve` starts ganak and a listener thread for timeout updates, and waits in
`communicate`.  A listener outlives its run: it blocks on the stream and sees `stop_event` only when
the next update arrives.  All runs of `_solve` allocate their process and their two events in
one heap; a listener has the handles that it was started with.

* `State.step`: the atomic steps of the task thread, of every listener, and of the processes;
* `SolveStep`, `ListenStep`: the moves of the two kinds of threads;
* `State.Inv`: which handles belong to which run, and who has signalled which process;
* `killed_reported`: a killed process is reported as timed out, and no listener touches anything of
  another run.
-/

namespace HydraSAT.Worker

open HydraSAT.Lib HydraSAT.Master

/-! ### Processes -/

/-- Who kills a process. -/
inductive Killer
  /-- The listener with this index. -/
  | listener (i : ℕ)
  /-- `_solve`, when `communicate` has run into its timeout. -/
  | communicate
  deriving DecidableEq

/-- What has become of a process; its output is what it has written to `stdout`. -/
inductive Fate
  | running
  /-- The signal is sent, the process not yet gone. -/
  | signalled (killer : Killer)
  | exited (stdout : List Char)
  | killed (killer : Killer) (stdout : List Char)
  deriving DecidableEq

/-- The output of a process that is gone. -/
def Fate.stdout : Fate → Option (List Char)
  | .exited stdout => some stdout
  | .killed _ stdout => some stdout
  | _ => none

/-- Who has signalled the process while it was running. -/
def Fate.killer : Fate → Option Killer
  | .signalled killer => some killer
  | .killed killer _ => some killer
  | _ => none

structure Process where
  /-- The run of `_solve` it was started in. -/
  run : ℕ
  fate : Fate

/-- `Popen.kill`, which does nothing if the process has completed. -/
def Process.kill (killer : Killer) (p : Process) : Process :=
  match p.fate with
  | .running => { p with fate := .signalled killer }
  | _ => p

/-- The process exits by itself. -/
def Process.exit (stdout : List Char) (p : Process) : Option Process :=
  match p.fate with
  | .running => some { p with fate := .exited stdout }
  | .signalled _ => some { p with fate := .exited stdout }
  | _ => none

/-- The signal takes effect. -/
def Process.die (stdout : List Char) (p : Process) : Option Process :=
  match p.fate with
  | .signalled killer => some { p with fate := .killed killer stdout }
  | _ => none

/-! ### Threads -/

/-- The locals of a run of `_solve` that its listener is given. -/
structure Handles where
  /-- The number of the run; nothing reads it. -/
  run : ℕ
  proc : ℕ
  startTs : ℚ
  stopEvent : ℕ
  killedEvent : ℕ

/-- Control points of `_listen`. -/
inductive ListenerPc
  /-- In `SubscribeTimeoutUpdates`. -/
  | subscribing
  /-- At the head of the loop over the stream. -/
  | waiting
  /-- Before `stop_event.is_set()`. -/
  | received (timeoutSec : ℤ)
  /-- Before the tests of the new timeout. -/
  | checked (timeoutSec : ℤ)
  /-- Before `killed_event.set()`. -/
  | setting
  /-- Before `proc.kill()`. -/
  | killing
  | done
  deriving DecidableEq

structure Listener where
  handles : Handles
  pc : ListenerPc

/-- Control points of the task thread, with the locals of `_solve`. -/
inductive Solver
  /-- Between two runs of `_solve`. -/
  | idle
  /-- Before `Popen`. -/
  | started (task : TaskPayload) (startTs : ℚ)
  /-- Before the events are created. -/
  | spawned (task : TaskPayload) (startTs : ℚ) (proc : ℕ)
  /-- Before `_start_timeout_subscriber`. -/
  | subscribing (task : TaskPayload) (h : Handles)
  /-- In `communicate`. -/
  | communicating (task : TaskPayload) (h : Handles)
  /-- `communicate` has returned; before `stop_event.set()`. -/
  | returned (task : TaskPayload) (h : Handles) (stdout : List Char) (duration : ℚ)
  /-- Before `killed_event.is_set()`. -/
  | stopped (task : TaskPayload) (h : Handles) (stdout : List Char) (duration : ℚ)
  /-- `TimeoutExpired`; before `proc.kill()`. -/
  | expired (task : TaskPayload) (h : Handles)
  /-- In `proc.wait()`. -/
  | reaping (task : TaskPayload) (h : Handles)
  /-- Before the second `stop_event.set()`. -/
  | reaped (task : TaskPayload) (h : Handles)
  /-- Before the result that is marked as timed out. -/
  | late (task : TaskPayload) (h : Handles)

structure State where
  procs : List Process
  events : List Bool
  listeners : List Listener
  solver : Solver
  /-- What the finished runs of `_solve` have returned. -/
  results : List TaskResult

def State.start : State :=
  { procs := [], events := [], listeners := [], solver := .idle, results := [] }

/-! ### Steps -/

/-- What the task thread does next; the clock is resolved by the label. -/
inductive SolveMove
  | take (task : TaskPayload) (now : ℚ)
  | advance (now : ℚ)
  /-- `communicate` raises `TimeoutExpired`. -/
  | expire

/-- One atomic step of `_solve`. -/
def solveStep (workerId : String) (s : State) (m : SolveMove) : Option State :=
  match s.solver, m with
  | .idle, .take task now => some { s with solver := .started task now }
  | .started task startTs, .advance _ =>
      some { s with
        procs := s.procs ++ [⟨s.results.length, .running⟩]
        solver := .spawned task startTs s.procs.length }
  | .spawned task startTs proc, .advance _ =>
      some { s with
        events := s.events ++ [false, false]
        solver := .subscribing task
          ⟨s.results.length, proc, startTs, s.events.length, s.events.length + 1⟩ }
  | .subscribing task h, .advance _ =>
      some { s with
        listeners := s.listeners ++ [⟨h, .subscribing⟩]
        solver := .communicating task h }
  | .communicating task h, .advance now =>
      ((s.procs[h.proc]?).bind fun p => p.fate.stdout).map fun stdout =>
        { s with solver := .returned task h stdout (now - h.startTs) }
  | .communicating task h, .expire =>
      if (subprocessTimeout task).isSome then some { s with solver := .expired task h } else none
  | .returned task h stdout duration, .advance _ =>
      some { s with
        events := s.events.set h.stopEvent true
        solver := .stopped task h stdout duration }
  | .stopped task h stdout duration, .advance _ =>
      some { s with
        solver := .idle
        results := s.results ++
          [fromOutput workerId (s.events.getD h.killedEvent false) duration task stdout] }
  | .expired task h, .advance _ =>
      some { s with
        procs := s.procs.modify h.proc (Process.kill .communicate)
        solver := .reaping task h }
  | .reaping task h, .advance _ =>
      ((s.procs[h.proc]?).bind fun p => p.fate.stdout).map fun _ =>
        { s with solver := .reaped task h }
  | .reaped task h, .advance _ =>
      some { s with
        events := s.events.set h.stopEvent true
        solver := .late task h }
  | .late task h, .advance now =>
      some { s with
        solver := .idle
        results := s.results ++
          [{ taskId := task.taskId, workerId := workerId, count := "0"
             durationSec := now - h.startTs, timedOut := true }] }
  | _, _ => none

/-- What a listener does next. -/
inductive ListenerMove
  | subscribed
  | update (timeoutSec : ℤ)
  /-- The stream ends, or the call raises an error. -/
  | ended
  | advance (now : ℚ)

/-- Where `elapsed` after the start the tests of the new timeout lead. -/
def ListenerPc.decide (timeoutSec : ℤ) (elapsed : ℚ) : ListenerPc :=
  if timeoutSec ≤ 0 ∨ maxInt32 ≤ timeoutSec then .waiting
  else if (timeoutSec : ℚ) ≤ elapsed then .setting
  else .waiting

/-- The listener with index `i` goes to `pc`. -/
def State.goto (s : State) (i : ℕ) (pc : ListenerPc) : State :=
  { s with listeners := s.listeners.modify i fun l => { l with pc := pc } }

/-- One atomic step of `_listen`, in the listener with index `i`. -/
def listenStep (s : State) (i : ℕ) (l : Listener) (m : ListenerMove) : Option State :=
  match l.pc, m with
  | .subscribing, .subscribed => some (s.goto i .waiting)
  | .subscribing, .ended => some (s.goto i .done)
  | .waiting, .ended => some (s.goto i .done)
  | .waiting, .update timeoutSec => some (s.goto i (.received timeoutSec))
  | .received timeoutSec, .advance _ =>
      some (s.goto i (if s.events.getD l.handles.stopEvent false then .done else .checked timeoutSec))
  | .checked timeoutSec, .advance now =>
      some (s.goto i (.decide timeoutSec (now - l.handles.startTs)))
  | .setting, .advance _ =>
      some { s.goto i .killing with events := s.events.set l.handles.killedEvent true }
  | .killing, .advance _ =>
      some { s.goto i .done with
        procs := s.procs.modify l.handles.proc (Process.kill (.listener i)) }
  | _, _ => none

/-- Who moves. -/
inductive Move
  | solve (m : SolveMove)
  | listen (i : ℕ) (m : ListenerMove)
  | exit (p : ℕ) (stdout : List Char)
  | die (p : ℕ) (stdout : List Char)

def State.step (workerId : String) (s : State) : Move → Option State
  | .solve m => solveStep workerId s m
  | .listen i m => (s.listeners[i]?).bind fun l => listenStep s i l m
  | .exit p stdout =>
      ((s.procs[p]?).bind (Process.exit stdout)).map fun q => { s with procs := s.procs.set p q }
  | .die p stdout =>
      ((s.procs[p]?).bind (Process.die stdout)).map fun q => { s with procs := s.procs.set p q }

variable {workerId : String} {s s' : State}

/-! ### The moves of the threads -/

/-- The moves of `_solve`, from each of its control points. -/
inductive SolveStep (workerId : String) (s : State) : Solver → State → Prop
  | take (task now) : SolveStep workerId s .idle { s with solver := .started task now }
  | spawn (task startTs) : SolveStep workerId s (.started task startTs)
      { s with
        procs := s.procs ++ [⟨s.results.length, .running⟩]
        solver := .spawned task startTs s.procs.length }
  | allocate (task startTs proc) : SolveStep workerId s (.spawned task startTs proc)
      { s with
        events := s.events ++ [false, false]
        solver := .subscribing task
          ⟨s.results.length, proc, startTs, s.events.length, s.events.length + 1⟩ }
  | listen (task h) : SolveStep workerId s (.subscribing task h)
      { s with
        listeners := s.listeners ++ [⟨h, .subscribing⟩]
        solver := .communicating task h }
  | output (task h P stdout now) : s.procs[h.proc]? = some P → P.fate.stdout = some stdout →
      SolveStep workerId s (.communicating task h)
        { s with solver := .returned task h stdout (now - h.startTs) }
  | expire (task h) : (subprocessTimeout task).isSome = true →
      SolveStep workerId s (.communicating task h) { s with solver := .expired task h }
  | stop (task h stdout duration) : SolveStep workerId s (.returned task h stdout duration)
      { s with
        events := s.events.set h.stopEvent true
        solver := .stopped task h stdout duration }
  | answer (task h stdout duration) : SolveStep workerId s (.stopped task h stdout duration)
      { s with
        solver := .idle
        results := s.results ++
          [fromOutput workerId (s.events.getD h.killedEvent false) duration task stdout] }
  | kill (task h) : SolveStep workerId s (.expired task h)
      { s with
        procs := s.procs.modify h.proc (Process.kill .communicate)
        solver := .reaping task h }
  | reap (task h P stdout) : s.procs[h.proc]? = some P → P.fate.stdout = some stdout →
      SolveStep workerId s (.reaping task h) { s with solver := .reaped task h }
  | stopLate (task h) : SolveStep workerId s (.reaped task h)
      { s with
        events := s.events.set h.stopEvent true
        solver := .late task h }
  | answerLate (task h now) : SolveStep workerId s (.late task h)
      { s with
        solver := .idle
        results := s.results ++
          [{ taskId := task.taskId, workerId := workerId, count := "0"
             durationSec := now - h.startTs, timedOut := true }] }

theorem solveStep_cases {m : SolveMove} (hs : solveStep workerId s m = some s') :
    SolveStep workerId s s.solver s' := by
  unfold solveStep at hs
  cases hsolver : s.solver with
  | idle =>
      rw [hsolver] at hs
      cases m <;> cases hs
      exact .take _ _
  | started task startTs =>
      rw [hsolver] at hs
      cases m <;> cases hs
      exact .spawn _ _
  | spawned task startTs proc =>
      rw [hsolver] at hs
      cases m <;> cases hs
      exact .allocate _ _ _
  | subscribing task h =>
      rw [hsolver] at hs
      cases m <;> cases hs
      exact .listen _ _
  | communicating task h =>
      rw [hsolver] at hs
      cases m with
      | take task now => cases hs
      | advance now =>
          obtain ⟨stdout, hout, rfl⟩ := Option.map_eq_some_iff.mp hs
          obtain ⟨P, hP, hout⟩ := Option.bind_eq_some_iff.mp hout
          exact .output task h P stdout now hP hout
      | expire =>
          obtain ⟨htimeout, hs⟩ := Option.ite_none_right_eq_some.mp hs
          obtain rfl := Option.some.inj hs
          exact .expire task h htimeout
  | returned task h stdout duration =>
      rw [hsolver] at hs
      cases m <;> cases hs
      exact .stop _ _ _ _
  | stopped task h stdout duration =>
      rw [hsolver] at hs
      cases m <;> cases hs
      exact .answer _ _ _ _
  | expired task h =>
      rw [hsolver] at hs
      cases m <;> cases hs
      exact .kill _ _
  | reaping task h =>
      rw [hsolver] at hs
      cases m with
      | take task now => cases hs
      | advance now =>
          obtain ⟨stdout, hout, rfl⟩ := Option.map_eq_some_iff.mp hs
          obtain ⟨P, hP, hout⟩ := Option.bind_eq_some_iff.mp hout
          exact .reap task h P stdout hP hout
      | expire => cases hs
  | reaped task h =>
      rw [hsolver] at hs
      cases m <;> cases hs
      exact .stopLate _ _
  | late task h =>
      rw [hsolver] at hs
      cases m <;> cases hs
      exact .answerLate _ _ _

/-- The moves of the listener with index `i`, from each of its control points. -/
inductive ListenStep (s : State) (i : ℕ) (own : Handles) : ListenerPc → State → Prop
  | subscribed : ListenStep s i own .subscribing (s.goto i .waiting)
  | refused : ListenStep s i own .subscribing (s.goto i .done)
  | ended : ListenStep s i own .waiting (s.goto i .done)
  | update (timeoutSec) : ListenStep s i own .waiting (s.goto i (.received timeoutSec))
  | stopped (timeoutSec) : s.events.getD own.stopEvent false = true →
      ListenStep s i own (.received timeoutSec) (s.goto i .done)
  | live (timeoutSec) : s.events.getD own.stopEvent false = false →
      ListenStep s i own (.received timeoutSec) (s.goto i (.checked timeoutSec))
  | overdue (timeoutSec) : ListenStep s i own (.checked timeoutSec) (s.goto i .setting)
  | early (timeoutSec) : ListenStep s i own (.checked timeoutSec) (s.goto i .waiting)
  | set : ListenStep s i own .setting
      { s.goto i .killing with events := s.events.set own.killedEvent true }
  | kill : ListenStep s i own .killing
      { s.goto i .done with procs := s.procs.modify own.proc (Process.kill (.listener i)) }

theorem listenStep_cases {i : ℕ} {l : Listener} {m : ListenerMove} (hs : listenStep s i l m = some s') :
    ListenStep s i l.handles l.pc s' := by
  unfold listenStep at hs
  cases hpc : l.pc with
  | subscribing =>
      rw [hpc] at hs
      cases m <;> cases hs
      · exact .subscribed
      · exact .refused
  | waiting =>
      rw [hpc] at hs
      cases m <;> cases hs
      · exact .update _
      · exact .ended
  | received timeoutSec =>
      rw [hpc] at hs
      cases m <;> cases hs
      cases hstop : s.events.getD l.handles.stopEvent false with
      | true => exact .stopped timeoutSec hstop
      | false => exact .live timeoutSec hstop
  | checked timeoutSec =>
      rw [hpc] at hs
      cases m <;> cases hs
      unfold ListenerPc.decide
      split
      · exact .early timeoutSec
      · split
        · exact .overdue timeoutSec
        · exact .early timeoutSec
  | setting =>
      rw [hpc] at hs
      cases m <;> cases hs
      exact .set
  | killing =>
      rw [hpc] at hs
      cases m <;> cases hs
      exact .kill
  | done =>
      rw [hpc] at hs
      cases m <;> cases hs

/-- **What a run returns is what `solve` returns** for the process as the run has seen it: its
output, or the timeout. -/
theorem solveStep_results {m : SolveMove} (hs : solveStep workerId s m = some s') :
    s'.results = s.results ∨ ∃ task outcome killedEvent duration,
      s'.results = s.results ++ [solve workerId (fun _ _ => outcome) killedEvent duration task] := by
  have hm := solveStep_cases hs
  generalize s.solver = v at hm
  cases hm with
  | answer task h stdout duration => exact .inr ⟨task, .exited stdout, _, duration, rfl⟩
  | answerLate task h now => exact .inr ⟨task, .expired, false, _, rfl⟩
  | _ => exact .inl rfl

/-! ### Whose handle is whose -/

/-- The handles of the run with number `r`. -/
def Handles.own (r : ℕ) (startTs : ℚ) : Handles := ⟨r, r, startTs, 2 * r, 2 * r + 1⟩

/-- How many processes, pairs of events and listeners the current run has allocated. -/
@[simp]
def Solver.allocated : Solver → ℕ × ℕ × ℕ
  | .idle | .started _ _ => (0, 0, 0)
  | .spawned _ _ _ => (1, 0, 0)
  | .subscribing _ _ => (1, 1, 0)
  | _ => (1, 1, 1)

@[simp]
def Solver.proc : Solver → Option ℕ
  | .idle | .started _ _ => none
  | .spawned _ _ proc => some proc
  | .subscribing _ h | .communicating _ h | .returned _ h _ _ | .stopped _ h _ _ | .expired _ h
  | .reaping _ h | .reaped _ h | .late _ h => some h.proc

@[simp]
def Solver.handles : Solver → Option Handles
  | .idle | .started _ _ | .spawned _ _ _ => none
  | .subscribing _ h | .communicating _ h | .returned _ h _ _ | .stopped _ h _ _ | .expired _ h
  | .reaping _ h | .reaped _ h | .late _ h => some h

/-- Every run has its own process, events and listener. -/
structure State.Shape (s : State) : Prop where
  procs : s.procs.length = s.results.length + s.solver.allocated.1
  events : s.events.length = 2 * (s.results.length + s.solver.allocated.2.1)
  listeners : s.listeners.length = s.results.length + s.solver.allocated.2.2
  run : ∀ (p : ℕ) (P : Process), s.procs[p]? = some P → P.run = p
  given : ∀ (i : ℕ) (l : Listener), s.listeners[i]? = some l →
    l.handles = .own i l.handles.startTs
  proc : ∀ p, s.solver.proc = some p → p = s.results.length
  handles : ∀ h, s.solver.handles = some h → h = .own s.results.length h.startTs

theorem Process.kill_spec (k : Killer) (P : Process) :
    (P.kill k).run = P.run ∧ (P.kill k).fate.stdout = P.fate.stdout ∧
      (∀ k', (P.kill k).fate.killer = some k' → P.fate.killer = some k' ∨ k' = k) ∧
      (P.fate.stdout.isSome = true → P.kill k = P) := by
  unfold Process.kill
  split
  · rename_i hrunning
    refine ⟨rfl, by rw [hrunning]; rfl, fun k' hk => .inr (Option.some.inj hk).symm, ?_⟩
    rw [hrunning]
    exact nofun
  · exact ⟨rfl, rfl, fun k' hk => .inl hk, fun _ => rfl⟩

theorem Process.exit_spec {stdout : List Char} {P Q : Process} (h : P.exit stdout = some Q) :
    Q.run = P.run ∧ P.fate.stdout = none ∧ Q.fate.killer = none := by
  unfold Process.exit at h
  split at h
  · rename_i hrunning
    obtain rfl := Option.some.inj h
    exact ⟨rfl, by rw [hrunning]; rfl, rfl⟩
  · rename_i hsignalled
    obtain rfl := Option.some.inj h
    exact ⟨rfl, by rw [hsignalled]; rfl, rfl⟩
  · cases h

theorem Process.die_spec {stdout : List Char} {P Q : Process} (h : P.die stdout = some Q) :
    Q.run = P.run ∧ P.fate.stdout = none ∧ Q.fate.killer = P.fate.killer := by
  unfold Process.die at h
  split at h
  · rename_i hsignalled
    obtain rfl := Option.some.inj h
    rw [hsignalled]
    exact ⟨rfl, rfl, rfl⟩
  · cases h

/-- A step that allocates nothing. -/
theorem State.Shape.keep (h : s.Shape) {procs : List Process} {events : List Bool} {v : Solver}
    (hprocs : procs.length = s.procs.length)
    (hrun : ∀ (p : ℕ) (P : Process), procs[p]? = some P → P.run = p)
    (hevents : events.length = s.events.length)
    (hsame : v.allocated = s.solver.allocated ∧ v.proc = s.solver.proc ∧
      v.handles = s.solver.handles) :
    State.Shape { s with procs := procs, events := events, solver := v } where
  procs := by rw [hprocs, hsame.1]; exact h.procs
  events := by rw [hevents, hsame.1]; exact h.events
  listeners := by rw [hsame.1]; exact h.listeners
  run := hrun
  given := h.given
  proc p hp := h.proc p (hsame.2.1 ▸ hp)
  handles o ho := h.handles o (hsame.2.2 ▸ ho)

/-- A run that has allocated everything returns. -/
theorem State.Shape.finish (h : s.Shape) (result : TaskResult)
    (hallocated : s.solver.allocated = (1, 1, 1)) :
    State.Shape { s with solver := .idle, results := s.results ++ [result] } := by
  obtain ⟨hprocs, hevents, hlisteners, hrun, hgiven, -, -⟩ := h
  rw [hallocated] at hprocs hevents hlisteners
  have hlen : (s.results ++ [result]).length = s.results.length + 1 := by
    rw [List.length_append, List.length_singleton]
  exact ⟨hprocs.trans hlen.symm, hevents.trans (congrArg (2 * ·) hlen.symm),
    hlisteners.trans hlen.symm, hrun, hgiven, nofun, nofun⟩

/-- Killing a process keeps its number. -/
theorem run_modify_kill {procs : List Process} (k : Killer) (q : ℕ)
    (hrun : ∀ (p : ℕ) (P : Process), procs[p]? = some P → P.run = p) :
    ∀ (p : ℕ) (P : Process), (procs.modify q (Process.kill k))[p]? = some P → P.run = p := by
  intro p P hP
  rw [List.getElem?_modify] at hP
  split at hP
  · obtain ⟨Q, hQ, rfl⟩ := Option.map_eq_some_iff.mp hP
    exact (Process.kill_spec k Q).1.trans (hrun p Q hQ)
  · obtain ⟨Q, hQ, rfl⟩ := Option.map_eq_some_iff.mp hP
    exact hrun p Q hQ

/-- Every allocation goes to the end of its list, and the current run has the number of the
results. -/
theorem solveStep_shape {m : SolveMove} (h : s.Shape) (hs : solveStep workerId s m = some s') :
    s'.Shape := by
  have hprocs := h.procs
  have hevents := h.events
  have hlisteners := h.listeners
  have hm := solveStep_cases hs
  generalize hsolver : s.solver = v at hm
  cases hm with
  | take task now => exact h.keep rfl h.run rfl (by rw [hsolver]; exact ⟨rfl, rfl, rfl⟩)
  | spawn task startTs =>
      rw [hsolver] at hprocs hevents hlisteners
      refine ⟨?_, hevents, hlisteners, fun p P hP => ?_, h.given, fun p hp => ?_, nofun⟩
      · rw [List.length_append, List.length_singleton, hprocs]
        rfl
      · rcases getElem?_concat_cases hP with hP | ⟨rfl, rfl⟩
        · exact h.run p P hP
        · exact hprocs.symm
      · exact (Option.some.inj hp).symm.trans hprocs
  | allocate task startTs proc =>
      have hproc : proc = s.results.length := h.proc proc (by rw [hsolver]; rfl)
      rw [hsolver] at hprocs hevents hlisteners
      refine ⟨hprocs, ?_, hlisteners, h.run, h.given, fun p hp => ?_, fun o ho => ?_⟩
      · rw [List.length_append, hevents]
        rfl
      · exact (Option.some.inj hp).symm.trans hproc
      · rw [← Option.some.inj ho, hproc, hevents]
        rfl
  | listen task own =>
      have hown : own = .own s.results.length own.startTs := h.handles own (by rw [hsolver]; rfl)
      rw [hsolver] at hprocs hevents hlisteners
      refine ⟨hprocs, hevents, ?_, h.run, fun i l hl => ?_, fun p hp => ?_, fun o ho => ?_⟩
      · rw [List.length_append, List.length_singleton, hlisteners]
        rfl
      · rcases getElem?_concat_cases hl with hl | ⟨rfl, rfl⟩
        · exact h.given i l hl
        · rw [hlisteners]
          exact hown
      · exact h.proc p (by rw [hsolver]; exact hp)
      · exact h.handles o (by rw [hsolver]; exact ho)
  | output task own P stdout now _ _ =>
      exact h.keep rfl h.run rfl (by rw [hsolver]; exact ⟨rfl, rfl, rfl⟩)
  | expire task own _ => exact h.keep rfl h.run rfl (by rw [hsolver]; exact ⟨rfl, rfl, rfl⟩)
  | stop task own stdout duration =>
      exact h.keep rfl h.run List.length_set (by rw [hsolver]; exact ⟨rfl, rfl, rfl⟩)
  | answer task own stdout duration => exact h.finish _ (by rw [hsolver]; rfl)
  | kill task own =>
      exact h.keep (List.length_modify ..) (run_modify_kill _ _ h.run) rfl
        (by rw [hsolver]; exact ⟨rfl, rfl, rfl⟩)
  | reap task own P stdout _ _ =>
      exact h.keep rfl h.run rfl (by rw [hsolver]; exact ⟨rfl, rfl, rfl⟩)
  | stopLate task own =>
      exact h.keep rfl h.run List.length_set (by rw [hsolver]; exact ⟨rfl, rfl, rfl⟩)
  | answerLate task own now => exact h.finish _ (by rw [hsolver]; rfl)

/-- How many listeners there are is bounded by how many events there are. -/
theorem Solver.allocated_le (v : Solver) : v.allocated.2.2 ≤ v.allocated.2.1 := by
  cases v <;> exact Nat.le_of_ble_eq_true rfl

theorem State.Shape.slot (h : s.Shape) {i : ℕ} {l : Listener} (hl : s.listeners[i]? = some l) :
    2 * i + 1 < s.events.length := by
  have hi := (List.getElem?_eq_some_iff.mp hl).1
  have hle := s.solver.allocated_le
  rw [h.listeners] at hi
  rw [h.events]
  omega

/-! ### Who has killed whom -/

/-- The task thread has signalled its process. -/
@[simp]
def Solver.signalling : Solver → Bool
  | .reaping _ _ | .reaped _ _ | .late _ _ => true
  | _ => false

/-- The task thread has seen its process gone. -/
@[simp]
def Solver.gone : Solver → Bool
  | .returned _ _ _ _ | .stopped _ _ _ _ | .reaped _ _ | .late _ _ => true
  | _ => false

/-- A result that does not pass for a count. -/
def Reported (result : TaskResult) : Prop := result.timedOut = true ∧ result.count = "0"

/-- A listener sets its event before it signals; the event is read after the process is gone. -/
structure State.Inv (s : State) : Prop extends s.Shape where
  armed : ∀ (i : ℕ) (l : Listener), s.listeners[i]? = some l → l.pc = .killing →
    s.events[2 * i + 1]? = some true
  signalled : ∀ (p : ℕ) (P : Process) (k : Killer), s.procs[p]? = some P → P.fate.killer = some k →
    (k = .listener p ∧ p < s.listeners.length ∧ s.events[2 * p + 1]? = some true) ∨
      (k = .communicate ∧ (p < s.results.length ∨ s.solver.signalling = true))
  gone : s.solver.gone = true →
    ∃ P, s.procs[s.results.length]? = some P ∧ P.fate.stdout.isSome = true
  reported : ∀ (r : ℕ) (result : TaskResult), s.results[r]? = some result →
    ∃ P, s.procs[r]? = some P ∧ P.fate.stdout.isSome = true ∧
      (P.fate.killer.isSome = true → Reported result)

/-! ### What keeps the invariant -/

variable {i : ℕ} {l : Listener} {k : Killer}

theorem State.Inv.goto (h : s.Inv) (i : ℕ) {pc : ListenerPc}
    (hpc : pc = .killing → s.events[2 * i + 1]? = some true) : (s.goto i pc).Inv := by
  obtain ⟨⟨hprocs, hevents, hlisteners, hrun, hgiven, hproc, hhandles⟩, harmed, hsignalled, hgone,
    hreported⟩ := h
  have hlen : (s.goto i pc).listeners.length = s.listeners.length := List.length_modify _ _ _
  refine ⟨⟨hprocs, hevents, hlen.trans hlisteners, hrun, fun j l hl => ?_, hproc, hhandles⟩,
    fun j l hl hkilling => ?_, fun p P k hP hk => ?_, hgone, hreported⟩
  · grind [State.goto]
  · grind [State.goto]
  · rw [hlen]
    exact hsignalled p P k hP hk

theorem State.Inv.raise (h : s.Inv) (e : ℕ) : State.Inv { s with events := s.events.set e true } := by
  have hup : ∀ j : ℕ, s.events[j]? = some true → (s.events.set e true)[j]? = some true := by grind
  refine ⟨⟨h.procs, (List.length_set ..).trans h.events, h.listeners, h.run, h.given, h.proc,
    h.handles⟩, fun j l hl hkilling => hup _ (h.armed j l hl hkilling), fun p P k hP hk => ?_, h.gone,
    h.reported⟩
  exact (h.signalled p P k hP hk).imp_left fun ⟨hself, hlt, hevent⟩ => ⟨hself, hlt, hup _ hevent⟩

/-- A process may change as long as it is running, and be signalled only by those who may. -/
theorem State.Inv.replace (h : s.Inv) {procs : List Process} (hlen : procs.length = s.procs.length)
    (hkeep : ∀ (p : ℕ) (P Q : Process), s.procs[p]? = some P → procs[p]? = some Q →
      Q.run = P.run ∧ (P.fate.stdout.isSome = true → Q = P) ∧
      ∀ k, Q.fate.killer = some k → P.fate.killer = some k ∨
        (k = .listener p ∧ p < s.listeners.length ∧ s.events[2 * p + 1]? = some true) ∨
        (k = .communicate ∧ (p < s.results.length ∨ s.solver.signalling = true))) :
    State.Inv { s with procs := procs } := by
  have hold : ∀ (p : ℕ) (Q : Process), procs[p]? = some Q → ∃ P, s.procs[p]? = some P := fun p Q hQ =>
    ⟨_, List.getElem?_eq_getElem (hlen ▸ (List.getElem?_eq_some_iff.mp hQ).1)⟩
  have hstill : ∀ (p : ℕ) (P : Process), s.procs[p]? = some P → P.fate.stdout.isSome = true →
      procs[p]? = some P := by
    intro p P hP hgone
    obtain ⟨Q, hQ⟩ : ∃ Q, procs[p]? = some Q :=
      ⟨_, List.getElem?_eq_getElem (hlen.symm ▸ (List.getElem?_eq_some_iff.mp hP).1)⟩
    rwa [(hkeep p P Q hP hQ).2.1 hgone] at hQ
  refine ⟨⟨hlen.trans h.procs, h.events, h.listeners, fun p Q hQ => ?_, h.given, h.proc, h.handles⟩,
    h.armed, fun p Q k hQ hk => ?_, fun hgone => ?_, fun r result hresult => ?_⟩
  · obtain ⟨P, hP⟩ := hold p Q hQ
    exact (hkeep p P Q hP hQ).1.trans (h.run p P hP)
  · obtain ⟨P, hP⟩ := hold p Q hQ
    exact ((hkeep p P Q hP hQ).2.2 k hk).elim (h.signalled p P k hP) id
  · obtain ⟨P, hP, hPgone⟩ := h.gone hgone
    exact ⟨P, hstill _ P hP hPgone, hPgone⟩
  · obtain ⟨P, hP, hPgone, hright⟩ := h.reported r result hresult
    exact ⟨P, hstill r P hP hPgone, hPgone, hright⟩

theorem State.Inv.kill (h : s.Inv) {p : ℕ}
    (hk : (k = .listener p ∧ p < s.listeners.length ∧ s.events[2 * p + 1]? = some true) ∨
      (k = .communicate ∧ (p < s.results.length ∨ s.solver.signalling = true))) :
    State.Inv { s with procs := s.procs.modify p (Process.kill k) } := by
  refine h.replace (List.length_modify _ _ _) fun q P Q hP hQ => ?_
  obtain ⟨hrun, -, hkiller, hsame⟩ := P.kill_spec k
  by_cases hqp : p = q
  · subst hqp
    rw [List.getElem?_modify_eq, hP] at hQ
    obtain rfl := Option.some.inj hQ
    refine ⟨hrun, hsame, fun k' hk' => (hkiller k' hk').imp_right fun heq => ?_⟩
    rwa [heq]
  · rw [List.getElem?_modify_ne _ _ hqp, hP] at hQ
    obtain rfl := Option.some.inj hQ
    exact ⟨rfl, fun _ => rfl, fun _ hk' => .inl hk'⟩

/-- A process that exits or dies has been running until then, and nobody else has killed it. -/
theorem State.Inv.end_process (h : s.Inv) {p : ℕ} {P Q : Process} (hP : s.procs[p]? = some P)
    (hrun : Q.run = P.run) (hrunning : P.fate.stdout = none)
    (hkiller : Q.fate.killer = none ∨ Q.fate.killer = P.fate.killer) :
    State.Inv { s with procs := s.procs.set p Q } := by
  refine h.replace (List.length_set ..) fun q P' Q' hP' hQ' => ?_
  by_cases hqp : p = q
  · subst hqp
    obtain rfl := Option.some.inj (hP.symm.trans hP')
    rw [List.getElem?_set_self (List.getElem?_eq_some_iff.mp hP).1] at hQ'
    obtain rfl := Option.some.inj hQ'
    refine ⟨hrun, fun hgone => ?_, fun k hk => .inl ?_⟩
    · rw [hrunning] at hgone
      cases hgone
    · rcases hkiller with hnone | hsame
      · rw [hnone] at hk
        cases hk
      · rwa [← hsame]
  · rw [List.getElem?_set_ne hqp, hP'] at hQ'
    obtain rfl := Option.some.inj hQ'
    exact ⟨rfl, fun _ => rfl, fun _ hk => .inl hk⟩

/-- The task thread moves on. -/
theorem State.Inv.advance (h : s.Inv) {v : Solver} (hshape : State.Shape { s with solver := v })
    (hsignalling : s.solver.signalling = true → v.signalling = true)
    (hgone : v.gone = true → s.solver.gone = true ∨
      ∃ P, s.procs[s.results.length]? = some P ∧ P.fate.stdout.isSome = true) :
    State.Inv { s with solver := v } := by
  refine ⟨hshape, h.armed, fun p P k hP hk => ?_, fun hv => (hgone hv).elim h.gone id, h.reported⟩
  exact (h.signalled p P k hP hk).imp_right fun ⟨hself, hwhen⟩ =>
    ⟨hself, hwhen.imp_right hsignalling⟩

/-- **The flag is up** when `communicate` has returned for a process that was killed. -/
theorem State.Inv.flagged (h : s.Inv) {task : TaskPayload} {own : Handles} {stdout : List Char}
    {duration : ℚ} (hsolver : s.solver = .stopped task own stdout duration) {P : Process}
    (hP : s.procs[s.results.length]? = some P) (hkilled : P.fate.killer.isSome = true) :
    s.events.getD own.killedEvent false = true := by
  obtain ⟨k, hk⟩ := Option.isSome_iff_exists.mp hkilled
  have hown : own = .own s.results.length own.startTs := h.handles own (by rw [hsolver]; rfl)
  rcases h.signalled _ P k hP hk with ⟨-, -, hevent⟩ | ⟨-, hdone | hlate⟩
  · rw [hown, List.getD_eq_getElem?_getD, Handles.own, hevent]
    rfl
  · exact absurd hdone (Nat.lt_irrefl _)
  · rw [hsolver] at hlate
    cases hlate

/-- A run of `_solve` returns. -/
theorem State.Inv.finish (h : s.Inv) {result : TaskResult}
    (hshape : State.Shape { s with solver := .idle, results := s.results ++ [result] })
    (hgone : s.solver.gone = true)
    (hresult : ∀ P, s.procs[s.results.length]? = some P → P.fate.killer.isSome = true →
      Reported result) :
    State.Inv { s with solver := .idle, results := s.results ++ [result] } := by
  obtain ⟨P, hP, hPgone⟩ := h.gone hgone
  refine ⟨hshape, h.armed, fun p Q k hQ hk => ?_, nofun, fun r result' hr => ?_⟩
  · have hp : p < s.results.length + 1 := by
      have hlt := (List.getElem?_eq_some_iff.mp hQ).1
      have hlen := hshape.procs
      rw [List.length_append, List.length_singleton] at hlen
      exact hlen ▸ hlt
    refine (h.signalled p Q k hQ hk).imp_right fun ⟨hself, _⟩ => ⟨hself, .inl ?_⟩
    rwa [List.length_append, List.length_singleton]
  · rcases getElem?_concat_cases hr with hr | ⟨rfl, rfl⟩
    · exact h.reported r result' hr
    · exact ⟨P, hP, hPgone, hresult P hP⟩

theorem solveStep_inv {m : SolveMove} (h : s.Inv) (hs : solveStep workerId s m = some s') :
    s'.Inv := by
  have hshape := solveStep_shape h.toShape hs
  have hm := solveStep_cases hs
  generalize hsolver : s.solver = v at hm
  cases hm with
  | take task now => exact h.advance hshape (by rw [hsolver]; exact nofun) nofun
  | spawn task startTs =>
      have hlen := h.procs
      rw [hsolver] at hlen
      obtain ⟨-, harmed, hsignalled, -, hreported⟩ := h
      refine ⟨hshape, harmed, ?_, nofun, ?_⟩ <;> grind [Fate.killer, Solver.signalling]
  | allocate task startTs proc =>
      obtain ⟨-, harmed, hsignalled, -, hreported⟩ := h
      refine ⟨hshape, ?_, ?_, nofun, hreported⟩ <;> grind [Solver.signalling]
  | listen task own =>
      obtain ⟨-, harmed, hsignalled, -, hreported⟩ := h
      refine ⟨hshape, ?_, ?_, nofun, hreported⟩ <;> grind [Solver.signalling]
  | output task own P stdout now hP hout =>
      have hcurrent : own.proc = s.results.length := h.proc _ (by rw [hsolver]; rfl)
      rw [hcurrent] at hP
      exact h.advance hshape (by rw [hsolver]; exact id) fun _ => .inr ⟨P, hP, by rw [hout]; rfl⟩
  | expire task own _ => exact h.advance hshape (by rw [hsolver]; exact id) nofun
  | stop task own stdout duration =>
      exact (h.raise _).advance hshape (by rw [hsolver]; exact id) fun _ => .inl (by rw [hsolver]; rfl)
  | answer task own stdout duration =>
      refine h.finish hshape (by rw [hsolver]; rfl) fun P hP hkilled => ?_
      rw [fromOutput, h.flagged hsolver hP hkilled]
      exact ⟨rfl, rfl⟩
  | kill task own =>
      have hreaping : State.Inv { s with solver := .reaping task own } :=
        h.advance (h.keep rfl h.run rfl (by rw [hsolver]; exact ⟨rfl, rfl, rfl⟩)) (fun _ => rfl) nofun
      exact hreaping.kill (.inr ⟨rfl, .inr rfl⟩)
  | reap task own P stdout hP hout =>
      have hcurrent : own.proc = s.results.length := h.proc _ (by rw [hsolver]; rfl)
      rw [hcurrent] at hP
      exact h.advance hshape (by rw [hsolver]; exact id) fun _ => .inr ⟨P, hP, by rw [hout]; rfl⟩
  | stopLate task own =>
      exact (h.raise _).advance hshape (by rw [hsolver]; exact id) fun _ => .inl (by rw [hsolver]; rfl)
  | answerLate task own now => exact h.finish hshape (by rw [hsolver]; rfl) fun _ _ _ => ⟨rfl, rfl⟩

theorem listenStep_inv {m : ListenerMove} (h : s.Inv) (hl : s.listeners[i]? = some l)
    (hs : listenStep s i l m = some s') : s'.Inv := by
  have hown := h.given i l hl
  have hm := listenStep_cases hs
  generalize hpc : l.pc = pc at hm
  cases hm with
  | set =>
      refine (h.raise l.handles.killedEvent).goto i fun _ => ?_
      rw [hown]
      exact List.getElem?_set_self (h.slot hl)
  | kill =>
      have hproc : l.handles.proc = i := by rw [hown]; rfl
      rw [hproc]
      exact (h.kill (.inl ⟨rfl, (List.getElem?_eq_some_iff.mp hl).1, h.armed i l hl hpc⟩)).goto i nofun
  | _ => exact h.goto i nofun

theorem step_inv {m : Move} (h : s.Inv) (hs : s.step workerId m = some s') : s'.Inv := by
  cases m with
  | solve m => exact solveStep_inv h hs
  | listen i m =>
      obtain ⟨l, hl, hs⟩ := Option.bind_eq_some_iff.mp hs
      exact listenStep_inv h hl hs
  | exit p stdout =>
      obtain ⟨Q, hQ, rfl⟩ := Option.map_eq_some_iff.mp hs
      obtain ⟨P, hP, hQ⟩ := Option.bind_eq_some_iff.mp hQ
      obtain ⟨hrun, hrunning, hkiller⟩ := Process.exit_spec hQ
      exact h.end_process hP hrun hrunning (.inl hkiller)
  | die p stdout =>
      obtain ⟨Q, hQ, rfl⟩ := Option.map_eq_some_iff.mp hs
      obtain ⟨P, hP, hQ⟩ := Option.bind_eq_some_iff.mp hQ
      obtain ⟨hrun, hrunning, hkiller⟩ := Process.die_spec hQ
      exact h.end_process hP hrun hrunning (.inr hkiller)

theorem inv_of_reachable (h : Reachable (State.step workerId) .start s) : s.Inv := by
  refine h.invariant State.Inv ?_ fun _ _ _ h _ hs => step_inv h hs
  have hnil : ∀ {α : Type} (r : ℕ) (x : α), ([] : List α)[r]? ≠ some x := fun _ _ h => by
    rw [List.getElem?_nil] at h
    cases h
  exact ⟨⟨rfl, rfl, rfl, fun p P hP => absurd hP (hnil p P), fun i l hl => absurd hl (hnil i l),
    nofun, nofun⟩, fun i l hl => absurd hl (hnil i l), fun p P _ hP => absurd hP (hnil p P), nofun,
    fun r result hr => absurd hr (hnil r result)⟩

/-! ### The way to the result -/

/-- How many steps of its own the task thread is from the result. -/
def Solver.remaining : Solver → ℕ
  | .subscribing _ _ | .expired _ _ => 4
  | .communicating _ _ | .reaping _ _ => 3
  | .returned _ _ _ _ | .reaped _ _ => 2
  | .stopped _ _ _ _ | .late _ _ => 1
  | _ => 0

/-- Once its process is gone, nothing blocks the task thread. -/
theorem advance_of_gone (workerId : String) {own : Handles} {P : Process}
    (hown : s.solver.handles = some own) (hP : s.procs[own.proc]? = some P)
    (hgone : P.fate.stdout.isSome = true) :
    ∃ s', s.step workerId (.solve (.advance 0)) = some s' ∧
      s'.procs[own.proc]? = some P ∧ ((∃ result, s'.results = s.results ++ [result]) ∨
        (s'.solver.handles = some own ∧ s'.results = s.results ∧
          s'.solver.remaining < s.solver.remaining)) := by
  obtain ⟨stdout, hout⟩ := Option.isSome_iff_exists.mp hgone
  unfold State.step solveStep
  cases hsolver : s.solver with
  | idle | started | spawned => rw [hsolver] at hown; cases hown
  | subscribing task h | returned task h | reaped task h =>
      rw [hsolver] at hown
      exact ⟨_, rfl, hP, .inr ⟨hown, rfl, Nat.lt_succ_self _⟩⟩
  | stopped | late => exact ⟨_, rfl, hP, .inl ⟨_, rfl⟩⟩
  | communicating task h | reaping task h =>
      rw [hsolver] at hown
      obtain rfl := Option.some.inj hown
      simp only [hP, hout, Option.bind_some, Option.map_some]
      exact ⟨_, rfl, hP, .inr ⟨rfl, rfl, Nat.lt_succ_self _⟩⟩
  | expired task h =>
      rw [hsolver] at hown
      obtain rfl := Option.some.inj hown
      refine ⟨_, rfl, ?_, .inr ⟨rfl, rfl, Nat.lt_succ_self _⟩⟩
      rw [List.getElem?_modify_eq, hP]
      exact congrArg some ((P.kill_spec _).2.2.2 hgone)

/-- **`_solve` returns** when its process is gone, by steps of its own. -/
theorem returns_of_gone (workerId : String) {own : Handles} {P : Process}
    (hown : s.solver.handles = some own) (hP : s.procs[own.proc]? = some P)
    (hgone : P.fate.stdout.isSome = true) :
    ∃ (n : ℕ) (s' : State) (result : TaskResult),
      exec (State.step workerId) s (List.replicate n (.solve (.advance 0))) = some s' ∧
        s'.procs[own.proc]? = some P ∧ s'.results = s.results ++ [result] := by
  induction hfuel : s.solver.remaining using Nat.strong_induction_on generalizing s with
  | _ fuel ih =>
      obtain ⟨s₁, hs₁, hP₁, ⟨result, hresult⟩ | ⟨hown₁, hresults, hlt⟩⟩ :=
        advance_of_gone workerId hown hP hgone
      · exact ⟨1, s₁, result, by rw [List.replicate_one, exec, hs₁]; rfl, hP₁, hresult⟩
      · obtain ⟨n, s', result, hexec, hP', hresult⟩ := ih _ (hfuel ▸ hlt) hown₁ hP₁ rfl
        refine ⟨n + 1, s', result, ?_, hP', hresults ▸ hresult⟩
        rw [List.replicate_succ, exec, hs₁]
        exact hexec

/-! ### Deadlines -/

/-- From `s` to `s'` nothing has changed that belongs to a run other than `r`, nor any listener but
the one with index `i`. -/
structure Spares (s s' : State) (i r : ℕ) : Prop where
  solver : s'.solver = s.solver
  results : s'.results = s.results
  procs : ∀ (p : ℕ) (P : Process), s.procs[p]? = some P → P.run ≠ r → s'.procs[p]? = some P
  events : ∀ h : Handles, (s.solver.handles = some h ∨ ∃ l ∈ s.listeners, l.handles = h) →
    h.run ≠ r → s'.events[h.stopEvent]? = s.events[h.stopEvent]? ∧
      s'.events[h.killedEvent]? = s.events[h.killedEvent]?
  listeners : ∀ j : ℕ, j ≠ i → s'.listeners[j]? = s.listeners[j]?

theorem spares_goto (s : State) (i r : ℕ) (pc : ListenerPc) : Spares s (s.goto i pc) i r :=
  ⟨rfl, rfl, fun _ _ hP _ => hP, fun _ _ _ => ⟨rfl, rfl⟩, fun _ hj =>
    List.getElem?_modify_ne _ _ (Ne.symm hj)⟩

/-- A listener moves, sets the event of its run, or signals the process of its run. -/
theorem listenStep_spares {m : ListenerMove} (h : s.Inv) (hl : s.listeners[i]? = some l)
    (hs : listenStep s i l m = some s') : Spares s s' i l.handles.run := by
  have hown := h.given i l hl
  have hrun : l.handles.run = i := by rw [hown]; rfl
  have hm := listenStep_cases hs
  generalize l.pc = pc at hm
  cases hm with
  | set =>
      obtain ⟨hsolver, hresults, hprocs, -, hlisteners⟩ := spares_goto s i l.handles.run .killing
      refine ⟨hsolver, hresults, hprocs, fun own hwhose hne => ?_, hlisteners⟩
      have hother : own = .own own.run own.startTs := by
        rcases hwhose with hcurrent | ⟨l', hl', rfl⟩
        · have hfresh := h.handles own hcurrent
          have hnum : own.run = s.results.length := by rw [hfresh]; rfl
          rwa [hnum]
        · obtain ⟨j, hj⟩ := List.getElem?_of_mem hl'
          have hgiven := h.given j l' hj
          have hnum : l'.handles.run = j := by rw [hgiven]; rfl
          rwa [hnum]
      have hkilled : l.handles.killedEvent = 2 * i + 1 := by rw [hown]; rfl
      rw [hrun] at hne
      rw [hother]
      show (s.events.set l.handles.killedEvent true)[2 * own.run]? = _ ∧
        (s.events.set l.handles.killedEvent true)[2 * own.run + 1]? = _
      rw [hkilled]
      exact ⟨List.getElem?_set_ne (by omega), List.getElem?_set_ne (by omega)⟩
  | kill =>
      obtain ⟨hsolver, hresults, -, hevents, hlisteners⟩ := spares_goto s i l.handles.run .done
      refine ⟨hsolver, hresults, fun p P hP hne => ?_, hevents, hlisteners⟩
      have hproc : l.handles.proc = i := by rw [hown]; rfl
      rw [h.run p P hP, hrun] at hne
      show (s.procs.modify l.handles.proc _)[p]? = some P
      rwa [hproc, List.getElem?_modify_ne _ _ (Ne.symm hne)]
  | _ => exact spares_goto s i _ _

theorem State.Inv.reported_of_killed (h : s.Inv) {p : ℕ} {P : Process} {stdout : List Char}
    {result : TaskResult} (hP : s.procs[p]? = some P) (hkilled : P.fate = .killed k stdout)
    (hresult : s.results[p]? = some result) : Reported result := by
  obtain ⟨Q, hQ, -, hright⟩ := h.reported p result hresult
  obtain rfl := Option.some.inj (hP.symm.trans hQ)
  exact hright (by rw [hkilled]; rfl)

/-- **A run that was killed for its deadline is never reported as a count, and no listener touches
another run.**  In every reachable state: a process is only signalled by the listener of its own run
or by `_solve`; a run whose process was killed has returned, or will return, a result that is timed
out with count `0`; and a step of a listener changes nothing of another run. -/
theorem killed_reported (h : Reachable (State.step workerId) .start s) :
    (∀ P ∈ s.procs, ∀ k, P.fate.killer = some k →
      k = .communicate ∨
        ∃ i l, k = .listener i ∧ s.listeners[i]? = some l ∧ l.handles.run = P.run) ∧
    (∀ P ∈ s.procs, ∀ k stdout result, P.fate = .killed k stdout →
      s.results[P.run]? = some result → result.timedOut = true ∧ result.count = "0") ∧
    (∀ own P k stdout, s.solver.handles = some own → s.procs[own.proc]? = some P →
      P.fate = .killed k stdout → ∃ n s' result,
        exec (State.step workerId) s (List.replicate n (.solve (.advance 0))) = some s' ∧
          s'.results = s.results ++ [result] ∧ result.timedOut = true ∧ result.count = "0") ∧
    ∀ i m s', s.step workerId (.listen i m) = some s' →
      ∃ l, s.listeners[i]? = some l ∧ Spares s s' i l.handles.run := by
  have hinv := inv_of_reachable h
  refine ⟨fun P hP k hk => ?_, fun P hP k stdout result hkilled hresult => ?_,
    fun own P k stdout hown hP hkilled => ?_, fun i m s' hs => ?_⟩
  · obtain ⟨p, hp⟩ := List.getElem?_of_mem hP
    refine (hinv.signalled p P k hp hk).symm.imp And.left fun ⟨hself, hlt, _⟩ => ?_
    have hl : s.listeners[p]? = some s.listeners[p] := List.getElem?_eq_getElem hlt
    refine ⟨p, _, hself, hl, ?_⟩
    rw [hinv.given p _ hl, hinv.run p P hp]
    rfl
  · obtain ⟨p, hp⟩ := List.getElem?_of_mem hP
    rw [hinv.run p P hp] at hresult
    exact hinv.reported_of_killed hp hkilled hresult
  · have hgone : P.fate.stdout.isSome = true := by rw [hkilled]; rfl
    obtain ⟨n, s', result, hexec, hP', hresult⟩ := returns_of_gone workerId hown hP hgone
    have hinv' := inv_of_reachable (h.trans (.of_exec (fun _ _ _ => trivial) hexec))
    have hproc : own.proc = s.results.length := by rw [hinv.handles own hown]; rfl
    have hlast : s'.results[own.proc]? = some result := by
      rw [hresult, hproc, List.getElem?_concat_length]
    exact ⟨n, s', result, hexec, hresult, hinv'.reported_of_killed hP' hkilled hlast⟩
  · obtain ⟨l, hl, hs⟩ := Option.bind_eq_some_iff.mp hs
    exact ⟨l, hl, listenStep_spares hinv hl hs⟩

/-- The process of a first task exits by itself.  Its listener is still waiting when the process of a
second task is killed by its own listener; both receive the update, and the first one stops. -/
def twoTasks : List Move :=
  let task : TaskPayload :=
    { taskId := 7, numVars := 2, numClauses := 1, formulaBody := "1 2 0", literals := [1]
      timeoutSec := 60 }
  [.solve (.take task 0), .solve (.advance 0), .solve (.advance 0), .solve (.advance 0),
    .listen 0 .subscribed, .exit 0 [], .solve (.advance 1), .solve (.advance 1), .solve (.advance 1),
    .solve (.take task 2), .solve (.advance 2), .solve (.advance 2), .solve (.advance 2),
    .listen 1 .subscribed, .listen 1 (.update 5), .listen 0 (.update 5), .listen 1 (.advance 3),
    .listen 1 (.advance 8), .listen 1 (.advance 8), .listen 0 (.advance 8), .listen 1 (.advance 8),
    .die 1 [], .solve (.advance 8), .solve (.advance 8), .solve (.advance 8)]

theorem killed_reported_twoTasks : ∃ s result, Reachable (State.step "w") .start s ∧
    s.results[1]? = some result ∧ result.timedOut = true ∧ result.count = "0" := by
  have hrun : (exec (State.step "w") .start twoTasks).map
      (fun s => (s.procs.map fun P => (P.run, P.fate), s.results.length)) =
      some ([(0, .exited []), (1, .killed (.listener 1) [])], 2) := by decide +kernel
  obtain ⟨s, hexec, hs⟩ := Option.map_eq_some_iff.mp hrun
  obtain ⟨hprocs, hlen⟩ := Prod.mk.inj hs
  have hr : Reachable (State.step "w") .start s := .of_exec (fun _ _ _ => trivial) hexec
  have hmem : (1, Fate.killed (.listener 1) []) ∈ s.procs.map fun P => (P.run, P.fate) := by
    rw [hprocs]
    exact List.mem_cons_of_mem _ List.mem_cons_self
  obtain ⟨P, hP, heq⟩ := List.mem_map.mp hmem
  obtain ⟨hrun1, hfate⟩ := Prod.mk.inj heq
  obtain ⟨result, hresult⟩ : ∃ result, s.results[P.run]? = some result :=
    ⟨_, List.getElem?_eq_getElem (by rw [hrun1, hlen]; exact Nat.one_lt_two)⟩
  exact ⟨s, result, hr, hrun1 ▸ hresult, (killed_reported hr).2.1 P hP _ _ result hfate hresult⟩

end HydraSAT.Worker
