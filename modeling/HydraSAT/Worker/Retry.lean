import Mathlib.Algebra.Order.Ring.Rat
import Mathlib.Tactic.NormNum

/-!
# When the worker gives up

`SATWorker.run` builds a channel and works on it in `_run_with_channel` until that returns; it returns
after the first call that fails with UNAVAILABLE, and the next channel starts to count failures
from the beginning.  A run is modelled over the iterations of the inner loop: how the calls of each
one end, and what the clock says then.  A channel that cannot be built is tried again, which changes
nothing here.

* `run_eq`: the worker only exits on an unexpected exception;
* `gives_up_iff`: it gives up when it says it does only where it never has to;
* `runWithChannel_delay`: every back-off is the first one.
-/

namespace HydraSAT.Worker.Retry

/-! ### Calls -/

def GIVE_UP_AFTER_SEC : ℚ := 120
def RETRY_BASE_SEC : ℚ := 2
def RETRY_MAX_SEC : ℚ := 15

/-- The calls of an iteration that may raise. -/
inductive Call
  | getTask
  /-- `SubmitResult`, after `GetTask` has returned a task. -/
  | submitResult
  deriving DecidableEq

/-- `grpc.StatusCode`; the worker looks for UNAVAILABLE only. -/
inductive StatusCode
  | unavailable
  | other
  deriving DecidableEq

/-- How an iteration of the inner loop ends. -/
inductive Outcome
  /-- `task_id` is -1. -/
  | noWork
  | submitted
  | rpcError (call : Call) (code : StatusCode)
  /-- Any other exception. -/
  | exception
  deriving DecidableEq

/-- An iteration, with the reading of the clock after its calls. -/
structure Poll where
  outcome : Outcome
  now : ℚ
  deriving DecidableEq

/-! ### The two loops -/

/-- Why `run` ends. -/
inductive Exit
  | gaveUp
  | unexpected
  deriving DecidableEq

/-- How `_run_with_channel` ends. -/
inductive Return
  /-- True, after a back-off; what is left are the iterations of the later channels. -/
  | reconnect (delay : ℚ) (rest : List Poll)
  /-- False. -/
  | exit (why : Exit)
  /-- The loop is still running. -/
  | polling

/-- The loop of `_run_with_channel`, with `failure_start` and `consecutive_failures`. -/
def workLoop : Option ℚ → ℕ → List Poll → Return
  | _, _, [] => .polling
  | failureStart, consecutiveFailures, p :: rest =>
      match p.outcome with
      | .noWork => workLoop none 0 rest
      | .submitted => workLoop none 0 rest
      | .exception => .exit .unexpected
      | .rpcError call code =>
          -- a `GetTask` that has returned resets both
          let failureStart := if call = .getTask then failureStart else none
          let consecutiveFailures := if call = .getTask then consecutiveFailures else 0
          if code = .unavailable then
            let failureStart := failureStart.getD p.now
            if GIVE_UP_AFTER_SEC < p.now - failureStart then .exit .gaveUp
            else
              .reconnect
                (min (RETRY_BASE_SEC * (3 / 2) ^ (consecutiveFailures + 1)) RETRY_MAX_SEC) rest
          else workLoop failureStart consecutiveFailures rest

/-- `_run_with_channel`. -/
def runWithChannel (polls : List Poll) : Return := workLoop none 0 polls

/-- The loop of `run`; the first argument bounds the number of channels. -/
def runLoop : ℕ → List Poll → Option Exit
  | 0, _ => none
  | channels + 1, polls =>
      match runWithChannel polls with
      | .reconnect _ rest => runLoop channels rest
      | .exit why => some why
      | .polling => none

/-- `run`, which every channel but the last leaves with fewer iterations; `none` if it has not
ended. -/
def run (polls : List Poll) : Option Exit := runLoop (polls.length + 1) polls

/-! ### What the loops do -/

variable {polls : List Poll}

/-- What `_run_with_channel` does from its initial values, which no iteration changes. -/
theorem workLoop_cases (polls : List Poll) :
    (workLoop none 0 polls = .polling ∧ ∀ p ∈ polls, p.outcome ≠ .exception) ∨
    (workLoop none 0 polls = .exit .unexpected ∧ ∃ p ∈ polls, p.outcome = .exception) ∨
    ∃ used rest, polls = used ++ rest ∧ used ≠ [] ∧ (∀ p ∈ used, p.outcome ≠ .exception) ∧
      workLoop none 0 polls = .reconnect (min (RETRY_BASE_SEC * (3 / 2) ^ 1) RETRY_MAX_SEC) rest := by
  induction polls with
  | nil => exact .inl ⟨rfl, fun p hp => absurd hp List.not_mem_nil⟩
  | cons p polls ih =>
      have hskip : workLoop none 0 (p :: polls) = workLoop none 0 polls → p.outcome ≠ .exception →
          (workLoop none 0 (p :: polls) = .polling ∧ ∀ q ∈ p :: polls, q.outcome ≠ .exception) ∨
          (workLoop none 0 (p :: polls) = .exit .unexpected ∧
            ∃ q ∈ p :: polls, q.outcome = .exception) ∨
          ∃ used rest, p :: polls = used ++ rest ∧ used ≠ [] ∧ (∀ q ∈ used, q.outcome ≠ .exception) ∧
            workLoop none 0 (p :: polls) =
              .reconnect (min (RETRY_BASE_SEC * (3 / 2) ^ 1) RETRY_MAX_SEC) rest := by
        intro heq hp
        rw [heq]
        rcases ih with ⟨hloop, hall⟩ | ⟨hloop, q, hq, hexc⟩ | ⟨used, rest, rfl, -, hall, hloop⟩
        · exact .inl ⟨hloop, List.forall_mem_cons.mpr ⟨hp, hall⟩⟩
        · exact .inr (.inl ⟨hloop, q, List.mem_cons_of_mem p hq, hexc⟩)
        · exact .inr (.inr ⟨p :: used, rest, rfl, List.cons_ne_nil _ _,
            List.forall_mem_cons.mpr ⟨hp, hall⟩, hloop⟩)
      obtain ⟨outcome, now⟩ := p
      cases outcome with
      | noWork | submitted => exact hskip rfl nofun
      | exception => exact .inr (.inl ⟨rfl, _, List.mem_cons_self, rfl⟩)
      | rpcError call code =>
          cases code with
          | other => exact hskip (by cases call <;> rfl) nofun
          | unavailable =>
              refine .inr (.inr ⟨[⟨.rpcError call .unavailable, now⟩], polls, rfl,
                List.cons_ne_nil _ _, fun q hq => by rw [List.mem_singleton.mp hq]; nofun, ?_⟩)
              have hzero : ¬GIVE_UP_AFTER_SEC < now - now := by
                rw [sub_self, GIVE_UP_AFTER_SEC]
                norm_num
              cases call with
              | getTask => exact if_neg hzero
              | submitResult => exact if_neg hzero

/-- **Every back-off is the first one**, of three seconds. -/
theorem runWithChannel_delay {delay : ℚ} {rest : List Poll}
    (h : runWithChannel polls = .reconnect delay rest) : delay = 3 := by
  rcases workLoop_cases polls with ⟨hloop, -⟩ | ⟨hloop, -⟩ | ⟨used, rest', -, -, -, hloop⟩
  · cases hloop.symm.trans h
  · cases hloop.symm.trans h
  · cases hloop.symm.trans h
    norm_num [RETRY_BASE_SEC, RETRY_MAX_SEC]

theorem runLoop_eq {channels : ℕ} (hlen : polls.length < channels) :
    runLoop channels polls =
      if ∃ p ∈ polls, p.outcome = .exception then some .unexpected else none := by
  induction channels generalizing polls with
  | zero => exact absurd hlen (Nat.not_lt_zero _)
  | succ channels ih =>
      rw [runLoop, runWithChannel]
      rcases workLoop_cases polls with
        ⟨hloop, hall⟩ | ⟨hloop, hexc⟩ | ⟨used, rest, rfl, hne, hall, hloop⟩
      · rw [hloop, if_neg fun ⟨p, hp, hexc⟩ => hall p hp hexc]
      · rw [hloop, if_pos hexc]
      · have hpos := List.length_pos_iff.mpr hne
        rw [List.length_append] at hlen
        rw [hloop]
        refine (ih (by omega)).trans ?_
        congr 1
        refine propext ⟨fun ⟨p, hp, hexc⟩ => ⟨p, List.mem_append_right _ hp, hexc⟩, ?_⟩
        rintro ⟨p, hp, hexc⟩
        exact ⟨p, (List.mem_append.mp hp).resolve_left fun hused => hall p hused hexc, hexc⟩

/-- **The worker only exits on an unexpected exception.** -/
theorem run_eq (polls : List Poll) :
    run polls = if ∃ p ∈ polls, p.outcome = .exception then some .unexpected else none :=
  runLoop_eq (Nat.lt_succ_self _)

theorem run_ne_gaveUp (polls : List Poll) : run polls ≠ some .gaveUp := by
  rw [run_eq]
  split <;> exact nofun

/-! ### Giving up -/

/-- The clock reading of the first failure with UNAVAILABLE since `GetTask` has last succeeded. -/
def streakStart (polls : List Poll) : Option ℚ :=
  polls.foldl (fun start p =>
    match p.outcome with
    | .rpcError call code =>
        let start := if call = .getTask then start else none
        if code = .unavailable then some (start.getD p.now) else start
    | _ => none) none

/-- From `first` to `last` every call fails with UNAVAILABLE, and `last` comes too late. -/
def OverdueAt (first : Poll) (between : List Poll) (last : Poll) : Prop :=
  (∃ call, first.outcome = .rpcError call .unavailable) ∧
    (∀ p ∈ between ++ [last], p.outcome = .rpcError .getTask .unavailable) ∧
    GIVE_UP_AFTER_SEC < last.now - first.now

/-- The worker gives up at a failure that is overdue, and at no failure that comes early. -/
structure GivesUpOnTime (polls : List Poll) : Prop where
  stops : ∀ before first between last after, polls = before ++ first :: (between ++ last :: after) →
    OverdueAt first between last → run (before ++ first :: between) = none →
    run (before ++ first :: (between ++ [last])) = some .gaveUp
  waits : ∀ before last after, polls = before ++ last :: after → run before = none →
    run (before ++ [last]) = some .gaveUp →
    ∃ start, streakStart (before ++ [last]) = some start ∧ GIVE_UP_AFTER_SEC ≤ last.now - start

/-- Some failure is overdue, and no exception has ended the worker before. -/
def Overdue (polls : List Poll) : Prop :=
  ∃ before first between last after, polls = before ++ first :: (between ++ last :: after) ∧
    (∀ p ∈ before, p.outcome ≠ .exception) ∧ OverdueAt first between last

theorem OverdueAt.running {before between : List Poll} {first last : Poll}
    (h : OverdueAt first between last) (hbefore : ∀ p ∈ before, p.outcome ≠ .exception) :
    run (before ++ first :: between) = none := by
  obtain ⟨⟨call, hfirst⟩, hbetween, -⟩ := h
  rw [run_eq, if_neg]
  rintro ⟨p, hp, hexc⟩
  rcases List.mem_append.mp hp with hp | hp
  · exact hbefore p hp hexc
  · rcases List.mem_cons.mp hp with rfl | hp
    · cases hfirst.symm.trans hexc
    · cases (hbetween p (List.mem_append_left _ hp)).symm.trans hexc

/-- **When the worker gives up on a dead master as it says it does**: only if no failure ever comes
more than `GIVE_UP_AFTER_SEC` after the first one of its streak. -/
theorem gives_up_iff (polls : List Poll) : GivesUpOnTime polls ↔ ¬Overdue polls := by
  constructor
  · rintro ⟨hstops, -⟩ ⟨before, first, between, last, after, hpolls, hbefore, hover⟩
    exact run_ne_gaveUp _
      (hstops before first between last after hpolls hover (hover.running hbefore))
  · intro hnever
    refine ⟨fun before first between last after hpolls hover hrunning => ?_,
      fun before last after _ _ hgave => absurd hgave (run_ne_gaveUp _)⟩
    refine absurd ⟨before, first, between, last, after, hpolls, fun p hp hexc => ?_, hover⟩ hnever
    rw [run_eq, if_pos ⟨p, List.mem_append_left _ hp, hexc⟩] at hrunning
    cases hrunning

/-- A master that is gone: with a back-off of three seconds and a pause of two, `GetTask` fails every
five seconds. -/
def deadMaster : List Poll :=
  (List.range 26).map fun k : ℕ => ⟨.rpcError .getTask .unavailable, ((5 * k : ℕ) : ℚ)⟩

/-- After 125 seconds the worker is still trying. -/
theorem deadMaster_not_given_up : run deadMaster = none ∧ ¬GivesUpOnTime deadMaster := by
  refine ⟨by decide +kernel, fun h => run_ne_gaveUp deadMaster ?_⟩
  have hlate : (⟨.rpcError .getTask .unavailable, 125⟩ : Poll).now -
      (⟨.rpcError .getTask .unavailable, 0⟩ : Poll).now = 125 := sub_zero _
  exact h.stops [] ⟨.rpcError .getTask .unavailable, 0⟩ (deadMaster.tail.take 24)
    ⟨.rpcError .getTask .unavailable, 125⟩ [] (by decide +kernel)
    ⟨⟨_, rfl⟩, by decide +kernel, by rw [hlate, GIVE_UP_AFTER_SEC]; norm_num⟩ (by decide +kernel)

end HydraSAT.Worker.Retry
