import HydraSAT.Master.Server
import HydraSAT.Worker.Parser

/-!
# Solving one task

`SATWorker._solve`.  The solver process is a parameter: what it does with the formula and the time
it is given.  The worker looks at its standard output only; how the process ended is not examined.

* `solve_sound_iff`: a result that is not marked as timed out carries the count that is printed exactly
  if one is printed, or the process did not exit by itself.
-/

namespace HydraSAT.Worker

open HydraSAT.Lib HydraSAT.Master

/-- How `communicate` with a ganak process ends. -/
inductive GanakOutcome
  /-- The process is over, whatever its return code, and has printed this. -/
  | exited (stdout : List Char)
  /-- `communicate` runs into the timeout. -/
  | expired

/-- The text `_solve` writes to the standard input of ganak. -/
def formula (task : TaskPayload) : String :=
  "p cnf " ++ toString task.numVars ++ " " ++ toString (task.numClauses + task.literals.length) ++ "\n" ++
    task.formulaBody ++ "\n" ++
    "\n".intercalate (task.literals.map fun lit => toString lit ++ " 0") ++ "\n"

/-- `None if task.timeout_sec >= 2_147_483_647 else task.timeout_sec`. -/
def subprocessTimeout (task : TaskPayload) : Option ℤ :=
  if maxInt32 ≤ task.timeoutSec then none else some task.timeoutSec

/-- The result of a run that `communicate` did not cut off. -/
def fromOutput (workerId : String) (killedEvent : Bool) (durationSec : ℚ) (task : TaskPayload)
    (stdout : List Char) : TaskResult :=
  if killedEvent then
    { taskId := task.taskId, workerId := workerId, count := "0", durationSec := durationSec
      timedOut := true }
  else
    { taskId := task.taskId, workerId := workerId, count := parseGanakUnweightedCount stdout
      durationSec := durationSec, timedOut := false }

/-- `_solve`, with ganak, the state of `killed_event` and the duration as parameters. -/
def solve (workerId : String) (ganak : String → Option ℤ → GanakOutcome) (killedEvent : Bool)
    (durationSec : ℚ) (task : TaskPayload) : TaskResult :=
  match ganak (formula task) (subprocessTimeout task) with
  | .exited stdout => fromOutput workerId killedEvent durationSec task stdout
  | .expired =>
      { taskId := task.taskId, workerId := workerId, count := "0", durationSec := durationSec
        timedOut := true }

/-- A result that is not timed out carries the count that the output of ganak reports for the formula. -/
def SolveSound (workerId : String) (ganak : String → Option ℤ → GanakOutcome) (killedEvent : Bool)
    (durationSec : ℚ) (task : TaskPayload) : Prop :=
  (solve workerId ganak killedEvent durationSec task).timedOut = false →
    ∃ stdout n, ganak (formula task) (subprocessTimeout task) = .exited stdout ∧ Reports stdout n ∧
      setString10 (solve workerId ganak killedEvent durationSec task).count = some (n : ℤ)

theorem setString10_reports {text : List Char} {n : ℕ} (h : Reports text n) :
    setString10 (parseGanakUnweightedCount text) = some (n : ℤ) := by
  obtain ⟨num, hnum, hparse⟩ := parse_of_reports h
  rw [hparse]
  exact setString10_of_digits (by rw [String.toList_ofList]; exact hnum)

/-- **The worker's result is sound exactly if ganak was killed or expired, or has printed a report.** -/
theorem solve_sound_iff (workerId : String) (ganak : String → Option ℤ → GanakOutcome)
    (killedEvent : Bool) (durationSec : ℚ) (task : TaskPayload) :
    SolveSound workerId ganak killedEvent durationSec task ↔
      killedEvent = true ∨ ∀ stdout, ganak (formula task) (subprocessTimeout task) = .exited stdout →
        ∃ n, Reports stdout n := by
  unfold SolveSound solve
  cases hrun : ganak (formula task) (subprocessTimeout task) with
  | exited stdout =>
      cases killedEvent with
      | true => exact iff_of_true (fun hto => Bool.noConfusion hto) (Or.inl rfl)
      | false =>
          constructor
          · intro hsound
            obtain ⟨stdout', n, heq, hreports, -⟩ := hsound rfl
            obtain rfl := GanakOutcome.exited.inj heq
            refine Or.inr fun stdout'' heq' => ?_
            obtain rfl := GanakOutcome.exited.inj heq'
            exact ⟨n, hreports⟩
          · intro h _
            obtain ⟨n, hreports⟩ := h.resolve_left Bool.noConfusion stdout rfl
            exact ⟨stdout, n, rfl, hreports, setString10_reports hreports⟩
  | expired => exact iff_of_true (fun hto => Bool.noConfusion hto) (Or.inr fun _ h => nomatch h)

end HydraSAT.Worker
