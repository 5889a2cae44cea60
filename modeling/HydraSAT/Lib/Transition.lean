import Mathlib.Logic.Basic
import Mathlib.Data.List.Basic

/-!
# Labelled partial steps and their guarded runs

A concurrent program is given by a partial step function `step : σ → α → Option σ`: the label
`α` names the thread that moves and resolves its choices, and `none` says that this thread is
blocked or has nothing left to do.

* `exec` executes a schedule, a list of labels;
* `Reaches step guard s₀ s`: some run leads from `s₀` to `s` in which every label satisfies
  `guard` in the state it is taken in, so that an assumption about every step of a run is a
  guard, and `Reachable` is the unguarded case;
* `Reaches.invariant` is the induction over runs, `Reaches.of_exec` turns an executed schedule
  into a run;
* `exec_length_le`: a potential that every step lowers bounds the length of every schedule;
* `Takes.steps_le`: the same for guarded runs, where some steps may raise the potential and are paid for;
* `Reaches.exists_goal`: a goal is reached if some step lowers the potential wherever it is not reached
  yet.
-/

namespace HydraSAT.Lib

variable {σ α : Type*}

/-- Execute a schedule; `none` as soon as one of its steps is not enabled. -/
def exec (step : σ → α → Option σ) : σ → List α → Option σ
  | s, [] => some s
  | s, a :: as => (step s a).bind fun s' => exec step s' as

/-- `s` is reached from `s₀` by a run whose every step satisfies `guard`. -/
inductive Reaches (step : σ → α → Option σ) (guard : σ → α → Prop) (s₀ : σ) : σ → Prop
  | start : Reaches step guard s₀ s₀
  | next {s s' : σ} {a : α} : Reaches step guard s₀ s → guard s a → step s a = some s' →
      Reaches step guard s₀ s'

/-- Reached by any run at all. -/
abbrev Reachable (step : σ → α → Option σ) (s₀ s : σ) : Prop :=
  Reaches step (fun _ _ => True) s₀ s

variable {step : σ → α → Option σ} {guard guard' : σ → α → Prop} {s₀ s s' : σ}

theorem exec_append (as bs : List α) :
    exec step s (as ++ bs) = (exec step s as).bind fun s' => exec step s' bs := by
  induction as generalizing s with
  | nil => rfl
  | cons a as ih =>
      simp only [List.cons_append, exec, ih]
      cases step s a <;> rfl

/-- Two schedules, one after the other. -/
theorem exec_trans {s₁ : σ} {as bs : List α} (h : exec step s as = some s₁)
    (h' : exec step s₁ bs = some s') : exec step s (as ++ bs) = some s' := by
  rw [exec_append, h]
  exact h'

/-- **A potential bounds runs.**  If every step from a state that satisfies the invariant keeps it and
lowers the potential, a schedule executes at most as many steps as the potential is high. -/
theorem exec_length_le (potential : σ → ℕ) (Inv : σ → Prop)
    (hstep : ∀ s a s', Inv s → step s a = some s' → Inv s' ∧ potential s' < potential s)
    (as : List α) (hs : Inv s) (h : exec step s as = some s') :
    as.length + potential s' ≤ potential s := by
  induction as generalizing s with
  | nil =>
      obtain rfl : s = s' := Option.some.inj h
      exact Nat.le_of_eq (Nat.zero_add _)
  | cons a as ih =>
      obtain ⟨s₁, hs₁, hrest⟩ := Option.bind_eq_some_iff.mp h
      obtain ⟨hinv, hlt⟩ := hstep s a s₁ hs hs₁
      have hlater := ih hinv hrest
      rw [List.length_cons]
      omega

namespace Reaches

/-- **Runs preserve invariants.**  What holds at the start and is kept by every guarded step holds
in every state reached. -/
theorem invariant (Inv : σ → Prop) (h : Reaches step guard s₀ s) (hstart : Inv s₀)
    (hstep : ∀ s a s', Inv s → guard s a → step s a = some s' → Inv s') : Inv s := by
  induction h with
  | start => exact hstart
  | next _ hg hs ih => exact hstep _ _ _ ih hg hs

/-- As `invariant`, where preservation may use that the state stepped from is itself reached. -/
theorem invariant' (Inv : σ → Prop) (h : Reaches step guard s₀ s) (hstart : Inv s₀)
    (hstep : ∀ s a s', Reaches step guard s₀ s → Inv s → guard s a → step s a = some s' →
      Inv s') : Inv s := by
  induction h with
  | start => exact hstart
  | next hr hg hs ih => exact hstep _ _ _ hr ih hg hs

/-- A run of a stronger guard is a run of a weaker one. -/
theorem mono (h : Reaches step guard s₀ s) (hg : ∀ s a, guard s a → guard' s a) :
    Reaches step guard' s₀ s := by
  induction h with
  | start => exact .start
  | next _ hga hs ih => exact .next ih (hg _ _ hga) hs

/-- As `mono`, where the guard may use that the state stepped from is itself reached. -/
theorem mono' (h : Reaches step guard s₀ s)
    (hg : ∀ s a, Reaches step guard s₀ s → guard s a → guard' s a) : Reaches step guard' s₀ s := by
  induction h with
  | start => exact .start
  | next hr hga hs ih => exact .next ih (hg _ _ hr hga) hs

/-- A run of one step function is one of another whose guarded steps include the guarded steps of the
first. -/
theorem of_step {step' : σ → α → Option σ} (h : Reaches step guard s₀ s)
    (hstep : ∀ s a s', guard s a → step s a = some s' → guard' s a ∧ step' s a = some s') :
    Reaches step' guard' s₀ s := by
  induction h with
  | start => exact .start
  | next _ hg hs ih =>
      obtain ⟨hg', hs'⟩ := hstep _ _ _ hg hs
      exact .next ih hg' hs'

theorem reachable (h : Reaches step guard s₀ s) : Reachable step s₀ s :=
  h.mono fun _ _ _ => trivial

theorem trans (h : Reaches step guard s₀ s) (h' : Reaches step guard s s') :
    Reaches step guard s₀ s' := by
  induction h' with
  | start => exact h
  | next _ hg hs ih => exact .next ih hg hs

/-- **Executed schedules are runs**, of every guard that their labels satisfy. -/
theorem of_exec {as : List α} (hg : ∀ s, ∀ a ∈ as, guard s a) (h : exec step s₀ as = some s) :
    Reaches step guard s₀ s := by
  induction as generalizing s₀ with
  | nil =>
      obtain rfl : s₀ = s := Option.some.inj h
      exact .start
  | cons a as ih =>
      obtain ⟨s₁, hs, hrest⟩ := Option.bind_eq_some_iff.mp h
      have hlater := ih (fun s b hb => hg s b (List.mem_cons_of_mem a hb)) hrest
      exact Reaches.trans (.next .start (hg s₀ a List.mem_cons_self) hs) hlater

/-- A schedule executed under a check is a run of every guard the check implies. -/
theorem of_exec_checked {check : σ → α → Bool} {as : List α}
    (hcheck : ∀ s a, check s a = true → guard s a)
    (h : exec (fun s a => if check s a then step s a else none) s₀ as = some s) :
    Reaches step guard s₀ s := by
  induction as generalizing s₀ with
  | nil =>
      obtain rfl : s₀ = s := Option.some.inj h
      exact .start
  | cons a as ih =>
      obtain ⟨s₁, hs, hrest⟩ := Option.bind_eq_some_iff.mp h
      obtain ⟨hc, hs⟩ := (Option.ite_none_right_eq_some).mp hs
      exact Reaches.trans (.next .start (hcheck s₀ a hc) hs) (ih hrest)

/-- **Progress.**  If in every state with the invariant the goal is reached, or some guarded step keeps the
invariant and lowers the potential, a run leads from each of them to the goal. -/
theorem exists_goal (Inv Goal : σ → Prop) (potential : σ → ℕ)
    (hstep : ∀ s, Inv s → Goal s ∨
      ∃ a s', guard s a ∧ step s a = some s' ∧ Inv s' ∧ potential s' < potential s)
    (hs : Inv s) : ∃ s', Reaches step guard s s' ∧ Goal s' := by
  induction hn : potential s using Nat.strongRecOn generalizing s with
  | ind n ih =>
      rcases hstep s hs with hgoal | ⟨a, s₁, hg, hs₁, hinv, hlt⟩
      · exact ⟨s, .start, hgoal⟩
      · obtain ⟨s', hr, hgoal⟩ := ih (potential s₁) (hn ▸ hlt) hinv rfl
        exact ⟨s', Reaches.trans (.next .start hg hs₁) hr, hgoal⟩

end Reaches

/-! ### Counted runs -/

/-- `s` is reached from `s₀` by `n` steps, each of which satisfies `guard`. -/
inductive Takes (step : σ → α → Option σ) (guard : σ → α → Prop) (s₀ : σ) : ℕ → σ → Prop
  | start : Takes step guard s₀ 0 s₀
  | next {n : ℕ} {s s' : σ} {a : α} : Takes step guard s₀ n s → guard s a → step s a = some s' →
      Takes step guard s₀ (n + 1) s'

namespace Takes

variable {n : ℕ}

theorem reaches (h : Takes step guard s₀ n s) : Reaches step guard s₀ s := by
  induction h with
  | start => exact .start
  | next _ hg hs ih => exact ih.next hg hs

/-- One more step at the beginning. -/
theorem cons {a : α} (hg : guard s₀ a) (hs : step s₀ a = some s) (h : Takes step guard s n s') :
    Takes step guard s₀ (n + 1) s' := by
  induction h with
  | start => exact .next .start hg hs
  | next _ hg' hs' ih => exact ih.next hg' hs'

/-- An executed schedule takes as many steps as it is long. -/
theorem of_exec_checked {check : σ → α → Bool} {as : List α}
    (hcheck : ∀ s a, check s a = true → guard s a)
    (h : exec (fun s a => if check s a then step s a else none) s₀ as = some s) :
    Takes step guard s₀ as.length s := by
  induction as generalizing s₀ with
  | nil =>
      obtain rfl : s₀ = s := Option.some.inj h
      exact .start
  | cons a as ih =>
      obtain ⟨s₁, hs, hrest⟩ := Option.bind_eq_some_iff.mp h
      obtain ⟨hc, hs⟩ := (Option.ite_none_right_eq_some).mp hs
      exact Takes.cons (hcheck s₀ a hc) hs (ih hrest)

/-- **Paid steps.**  If every step lowers the potential, up to what is paid in for it, a run takes as many
steps as the potential is high at its start and as are paid for, at the most. -/
theorem steps_le (potential paid : σ → ℕ) (h : Takes step guard s₀ n s)
    (hstep : ∀ s a s', Reaches step guard s₀ s → guard s a → step s a = some s' →
      potential s' + 1 + paid s ≤ potential s + paid s') :
    n + potential s + paid s₀ ≤ potential s₀ + paid s := by
  induction h with
  | start => omega
  | next h hg hs ih =>
      have hone := hstep _ _ _ h.reaches hg hs
      omega

end Takes

end HydraSAT.Lib
