import HydraSAT.Master.Completion

/-!
# The broadcast timeout

A `SubmitResult` handler that updates the dynamic timeout reads the old value, records its duration,
reads the new value and broadcasts it if it differs, each on its own.  Two things go wrong when
another handler comes between: a value is broadcast after a newer one (`System.broadcasts_outdated`),
and an update is not broadcast because old and new happen to be equal.

* `System.UpToDate`: a handler records and broadcasts only while the value it has read is current;
* `System.broadcast_current`: in such runs the last broadcast is the current timeout whenever no
  handler is on its way from its first read to its broadcast.
-/

namespace HydraSAT.Master

open HydraSAT.Lib

/-- The current timeout. -/
abbrev MasterServer.timeout (s : MasterServer) : ℤ := s.timeoutTracker.currentTimeoutSec s.cfg

/-- The handler has read the old timeout, and has neither broadcast nor decided not to. -/
def Handler.updating : Handler → Bool
  | .submitResult (.recordCompletion _ _) => true
  | .submitResult (.rereadTimeout _ _) => true
  | .submitResult (.broadcast _ _) => true
  | _ => false

/-- Whoever records has read the current timeout before, and whoever broadcasts broadcasts the current
one. -/
def System.UpToDate (s : System) (act : Action) : Prop :=
  (∀ i c r oldTimeout, act = .handler i c →
    s.handlers[i]? = some (.submitResult (.recordCompletion r oldTimeout)) →
    oldTimeout = s.server.timeout) ∧
  ∀ i c r newTimeout, act = .handler i c →
    s.handlers[i]? = some (.submitResult (.broadcast r newTimeout)) → newTimeout = s.server.timeout

/-- The handler is going to broadcast the timeout `t`, if nobody changes it. -/
def Handler.Publishes (t : ℤ) : Handler → Prop
  | .submitResult (.rereadTimeout _ oldTimeout) => oldTimeout ≠ t
  | .submitResult (.broadcast _ newTimeout) => newTimeout = t
  | _ => False

/-- The last broadcast is the current timeout, or some handler is going to make it so. -/
def System.Published (s : System) : Prop :=
  s.server.broadcasts.getLast? = some s.server.timeout ∨
    ∃ h ∈ s.handlers, h.Publishes s.server.timeout

/-! ### What a move does to the timeout -/

/-- **A handler's move and the timeout.**  It changes neither the timeout nor the broadcasts, and a
publisher stays one; or it records, from the current timeout; or it broadcasts the current timeout. -/
theorem HandlerMove.timeout {s s' : MasterServer} {h h' : Handler} (hm : HandlerMove s h s' h')
    (hrecord : ∀ r old, h = .submitResult (.recordCompletion r old) → old = s.timeout)
    (hbroadcast : ∀ r new, h = .submitResult (.broadcast r new) → new = s.timeout) :
    (s'.timeout = s.timeout ∧ s'.broadcasts = s.broadcasts ∧
        (h.Publishes s.timeout → h'.Publishes s.timeout)) ∨
      (s'.broadcasts = s.broadcasts ∧ ¬h.Publishes s.timeout ∧
        ∃ r, h' = .submitResult (.rereadTimeout r s.timeout)) ∨
      s'.broadcasts.getLast? = some s'.timeout := by
  cases hm with
  | getTask hg => cases hg <;> exact .inl ⟨rfl, rfl, fun hp => hp.elim⟩
  | submitResult hm =>
      cases hm with
      | recordCompletion r old =>
          refine .inr (.inl ⟨rfl, fun hp => hp.elim, r, ?_⟩)
          rw [hrecord r old rfl]
      | changed r old hnew => exact .inl ⟨rfl, rfl, fun _ => rfl⟩
      | unchanged r old hsame => exact .inl ⟨rfl, rfl, fun hp => absurd hsame.symm hp⟩
      | broadcast r new =>
          refine .inr (.inr ?_)
          show (s.broadcasts ++ [new]).getLast? = some s.timeout
          rw [List.getLast?_concat, hbroadcast r new rfl]
      | _ => exact .inl ⟨rfl, rfl, fun hp => hp.elim⟩

/-- `Solve` leaves the timeout alone, and after its initial broadcast the broadcasts, too. -/
theorem SolveMove.timeout {s s' : MasterServer} {p p' : Solve} (hm : SolveMove s p s' p') :
    s'.broadcasts.getLast? = some s'.timeout ∨
      (s'.timeout = s.timeout ∧ s'.broadcasts = s.broadcasts ∧ ∀ cubes, p ≠ .broadcast cubes) := by
  cases hm with
  | broadcast cubes => exact .inl List.getLast?_concat
  | _ => exact .inr ⟨rfl, rfl, nofun⟩

/-! ### Runs -/

/-- **A step from a published state leads to one.** -/
theorem System.Published.step {s s' : System} {act : Action} (h : s.Published) (hg : s.UpToDate act)
    (hs : s.step act = some s') : s'.Published := by
  cases System.move_of_step hs with
  | solve hp =>
      rcases hp.timeout with hlast | ⟨htimeout, hbroadcasts, -⟩
      · exact .inl hlast
      · refine h.imp (fun hlast => ?_) fun ⟨g, hg, hpub⟩ => ⟨g, hg, ?_⟩
        · exact (congrArg List.getLast? hbroadcasts).trans (hlast.trans (congrArg some htimeout.symm))
        · rwa [htimeout]
  | getTask w => exact h.imp id fun ⟨g, hg, hpub⟩ => ⟨g, List.mem_append_left _ hg, hpub⟩
  | submitResult r => exact h.imp id fun ⟨g, hg, hpub⟩ => ⟨g, List.mem_append_left _ hg, hpub⟩
  | @handler pre g post server g' c heq hm =>
      have hat : s.handlers[pre.length]? = some g := by simp [heq]
      have hself : g' ∈ pre ++ g' :: post := List.mem_append_right _ List.mem_cons_self
      have hrecord : ∀ r old, g = .submitResult (.recordCompletion r old) → old = s.server.timeout :=
        fun r old hrec => hg.1 _ c r old rfl (hrec ▸ hat)
      have hbroadcast : ∀ r new, g = .submitResult (.broadcast r new) → new = s.server.timeout :=
        fun r new hbc => hg.2 _ c r new rfl (hbc ▸ hat)
      rcases hm.timeout hrecord hbroadcast with ⟨htimeout, hbroadcasts, hkeep⟩ |
        ⟨hbroadcasts, hnot, r, rfl⟩ | hlast
      · refine h.imp (fun hlast => ?_) fun ⟨u, hu, hpub⟩ => ?_
        · exact (congrArg List.getLast? hbroadcasts).trans (hlast.trans (congrArg some htimeout.symm))
        · show ∃ v ∈ pre ++ g' :: post, v.Publishes server.timeout
          rw [heq] at hu
          rw [htimeout]
          by_cases hmover : u = g
          · exact ⟨g', hself, hkeep (hmover ▸ hpub)⟩
          · exact ⟨u, mem_exchange hu hmover, hpub⟩
      · -- the recorded duration moves the timeout away from the value read before, or not at all
        by_cases hsame : server.timeout = s.server.timeout
        · refine h.imp (fun hlast => ?_) fun ⟨u, hu, hpub⟩ => ?_
          · exact (congrArg List.getLast? hbroadcasts).trans (hlast.trans (congrArg some hsame.symm))
          · show ∃ v ∈ pre ++ _ :: post, v.Publishes server.timeout
            rw [heq] at hu
            rw [hsame]
            refine ⟨u, mem_exchange hu fun hmover => ?_, hpub⟩
            exact hnot (hmover ▸ hpub)
        · exact .inr ⟨_, hself, fun hold => hsame hold.symm⟩
      · exact .inl hlast

/-- A handler that publishes is on its way. -/
theorem Handler.updating_of_publishes {h : Handler} {t : ℤ} (hpub : h.Publishes t) :
    h.updating = true := by
  cases h with
  | getTask _ => exact hpub.elim
  | submitResult h =>
      cases h with
      | rereadTimeout r old => rfl
      | broadcast r new => rfl
      | _ => exact hpub.elim

/-- **The last broadcast is current** in up-to-date runs, once `Solve` has made its initial broadcast
and whenever no handler is between its first read and its broadcast. -/
theorem System.broadcast_current {cfg : HeuristicConfig} {workers : WorkerTracker} {cnf : CNFData}
    {cubes : List Cube} {s : System}
    (hr : Reaches System.step System.UpToDate (.init cfg workers cnf cubes) s)
    (hstarted : ∀ cubes, s.solve ≠ .broadcast cubes) (hquiet : ∀ h ∈ s.handlers, h.updating = false) :
    s.server.broadcasts.getLast? = some (s.server.timeoutTracker.currentTimeoutSec s.server.cfg) := by
  have hinv : (∀ cubes, s.solve ≠ .broadcast cubes) → s.Published := by
    refine hr.invariant (fun s => (∀ cubes, s.solve ≠ .broadcast cubes) → s.Published)
      (fun hne => absurd rfl (hne cubes)) ?_
    intro s act s' ih hg hs hne
    by_cases hold : ∀ cubes, s.solve ≠ .broadcast cubes
    · exact (ih hold).step hg hs
    · -- only the initial broadcast itself leaves the control point before it
      cases System.move_of_step hs with
      | solve hp =>
          rcases hp.timeout with hlast | ⟨-, -, hother⟩
          · exact .inl hlast
          · exact absurd hother hold
      | getTask w => exact absurd hne hold
      | submitResult r => exact absurd hne hold
      | handler c heq hm => exact absurd hne hold
  rcases hinv hstarted with hlast | ⟨h, hh, hpub⟩
  · exact hlast
  · have htrue := Handler.updating_of_publishes hpub
    rw [hquiet h hh] at htrue
    exact Bool.noConfusion htrue

/-- `UpToDate`, evaluated. -/
def System.upToDateCheck (s : System) : Action → Bool
  | .handler i _ =>
      match s.handlers[i]? with
      | some (.submitResult (.recordCompletion _ oldTimeout)) => oldTimeout == s.server.timeout
      | some (.submitResult (.broadcast _ newTimeout)) => newTimeout == s.server.timeout
      | _ => true
  | _ => true

theorem System.upToDate_of_check {s : System} {act : Action} (h : s.upToDateCheck act = true) :
    s.UpToDate act := by
  refine ⟨fun i c r old hact hi => ?_, fun i c r new hact hi => ?_⟩
  · subst hact
    simpa [System.upToDateCheck, hi] using h
  · subst hact
    simpa [System.upToDateCheck, hi] using h

/-- The settings with dynamic timeouts. -/
def dynamicConfig : HeuristicConfig := { defaultConfig with dynamicTimeout := true }

/-- A problem started by `main` with dynamic timeouts. -/
def dynamicInit : System :=
  .init dynamicConfig .new sevenVars (initialCubes fun _ => freqTable sevenVars.clauses)

/-- The results of tasks 1 and 2, after 40 and 60 seconds. -/
def timedAnswer (taskId : ℤ) (durationSec : ℚ) : TaskResult :=
  { taskId := taskId, workerId := "a", count := "1", durationSec := durationSec, timedOut := false }

/-- `Solve` enqueues two cubes, and they are handed out and submitted. -/
def twoSubmissions : List Action :=
  [List.replicate 10 .solve, [.getTask workerA, .getTask workerA],
    List.replicate 6 (.handler 0 .go), List.replicate 6 (.handler 1 .go),
    [.submitResult (timedAnswer 1 40), .submitResult (timedAnswer 2 60)]].flatten

/-- The two results, one after the other. -/
def updatesInTurn : List Action :=
  [twoSubmissions, List.replicate 10 (.handler 2 .go), List.replicate 10 (.handler 3 .go)].flatten

theorem System.broadcast_current_inTurn :
    ∃ s : System, s.server.broadcasts = [30, 80, 100] ∧
      s.server.broadcasts.getLast? = some (s.server.timeoutTracker.currentTimeoutSec s.server.cfg) := by
  have hrun : (exec (fun s a => if System.upToDateCheck s a then System.step s a else none)
      dynamicInit updatesInTurn).map (fun s => (s.server.broadcasts,
        s.handlers.any Handler.updating,
        match s.solve with | .broadcast _ => true | _ => false)) = some ([30, 80, 100], false, false) := by
    decide +kernel
  obtain ⟨s, hs, htriple⟩ := Option.map_eq_some_iff.mp hrun
  obtain ⟨hbroadcasts, hpair⟩ := Prod.mk.inj htriple
  obtain ⟨hquiet, hstarted⟩ := Prod.mk.inj hpair
  have hr := Reaches.of_exec_checked (fun _ _ => System.upToDate_of_check) hs
  refine ⟨s, hbroadcasts, System.broadcast_current hr (fun cubes heq => ?_) fun h hh => ?_⟩
  · rw [heq] at hstarted
    exact Bool.noConfusion hstarted
  · exact Bool.eq_false_iff.mpr fun htrue =>
      Bool.noConfusion (hquiet.symm.trans (List.any_eq_true.mpr ⟨h, hh, htrue⟩))

/-! ### An outdated broadcast -/

/-- The first result is recorded and its new timeout read; the second is recorded and broadcast; then
the first is broadcast. -/
def updatesCrossed : List Action :=
  [twoSubmissions, List.replicate 7 (.handler 2 .go), List.replicate 10 (.handler 3 .go),
    List.replicate 3 (.handler 2 .go)].flatten

/-- **The older value is broadcast last**: 80 seconds, where the timeout is 100. -/
theorem System.broadcasts_outdated :
    ∃ s, Reachable System.step dynamicInit s ∧ (∀ cubes, s.solve ≠ .broadcast cubes) ∧
      (∀ h ∈ s.handlers, h.updating = false) ∧ s.server.broadcasts.getLast? = some 80 ∧
      s.server.timeoutTracker.currentTimeoutSec s.server.cfg = 100 := by
  have hrun : (exec System.step dynamicInit updatesCrossed).map (fun s =>
      (s.server.broadcasts.getLast?, s.server.timeout, s.handlers.any Handler.updating,
        match s.solve with | .broadcast _ => true | _ => false)) =
          some (some 80, 100, false, false) := by
    decide +kernel
  obtain ⟨s, hs, hquad⟩ := Option.map_eq_some_iff.mp hrun
  obtain ⟨hlast, htriple⟩ := Prod.mk.inj hquad
  obtain ⟨htimeout, hpair⟩ := Prod.mk.inj htriple
  obtain ⟨hquiet, hstarted⟩ := Prod.mk.inj hpair
  refine ⟨s, Reaches.of_exec (fun _ _ _ => trivial) hs, fun cubes heq => ?_, fun h hh => ?_, hlast,
    htimeout⟩
  · rw [heq] at hstarted
    exact Bool.noConfusion hstarted
  · exact Bool.eq_false_iff.mpr fun htrue =>
      Bool.noConfusion (hquiet.symm.trans (List.any_eq_true.mpr ⟨h, hh, htrue⟩))

end HydraSAT.Master
