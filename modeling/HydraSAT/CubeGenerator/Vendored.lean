import HydraSAT.CubeGenerator.Assertions
import HydraSAT.CubeGenerator.Order

/-!
# The cubes of the generator as it is run

With the vendored propagator the cubes are closed trails.  A cube on which there is nothing left to branch
assigns every variable, so that it is a model.

The other steps of a run do not look at the propagator, and the argument about where the cubes are
applies to them as it does to any propagator.

* `System.leaves_are_models`: what is put aside, in any interleaving;
* `System.vendored_partition`: what is returned by runs that collect their answers.
-/

namespace HydraSAT.CubeGenerator

open HydraSAT.Lib Reducer Reducer.Propagator

/-! ### Leaves -/

section Leaves

variable {F : List Clause} {n : ℕ} {P₀ : Reducer.Propagator} {C : Cube}

/-- The cube assigns every variable. -/
def Complete (n : ℕ) (C : Cube) : Prop := ∀ l, Valid n l → l ∈ C ∨ -l ∈ C

theorem complete_of_next {selectLitSet : Cube → List ℕ → ℕ} (h : d4Next selectLitSet n C = none) :
    Complete n C := by
  rintro l ⟨hz, hle⟩
  simp only [d4Next] at h
  split at h
  · rename_i hnone
    have hrange : l.natAbs ∈ List.range' 1 n :=
      List.mem_range'_1.mpr ⟨Int.natAbs_pos.mpr hz, by omega⟩
    have hmem := List.filter_eq_nil_iff.mp hnone l.natAbs hrange
    rw [decide_eq_true_eq, not_not] at hmem
    obtain ⟨k, hk, heq⟩ := List.mem_map.mp hmem
    rcases Int.natAbs_eq_natAbs_iff.mp heq with rfl | rfl
    · exact .inl hk
    · exact .inr hk
  · cases h

/-- A cube without repeated variables is consistent. -/
theorem Proper.consistent (h : Proper n P₀ C) : ∃ a, cubeTrue a C = true := by
  refine ⟨fun v => decide ((v : ℤ) ∈ C), cubeTrue_iff.mpr fun l hl => ?_⟩
  unfold litTrue
  dsimp only
  split
  · rename_i hneg
    have habs : (l.natAbs : ℤ) = -l := by omega
    rw [habs, Bool.not_eq_true', decide_eq_false_iff_not]
    intro hmem
    have heq := List.inj_on_of_nodup_map h.nodup hl hmem (Int.natAbs_neg l).symm
    omega
  · rename_i hpos
    have habs : (l.natAbs : ℤ) = l := by omega
    rw [habs]
    exact decide_eq_true hl

/-- **A complete cube is a model**: propagation has found no clause that it makes false. -/
theorem Proper.model (hload : P₀.Loaded F n) (hF : ∀ c ∈ F, ∀ l ∈ c, Valid n l) (hC : Proper n P₀ C)
    (hall : Complete n C) {a : Assignment} (ha : cubeTrue a C = true) : formulaTrue a F = true := by
  obtain ⟨V, hV⟩ := hC.units
  have htrue : ∀ c : Clause, (∃ k ∈ c, k ∈ C) → clauseTrue a c = true := fun c ⟨k, hk, hmem⟩ =>
    List.any_eq_true.mpr ⟨k, hk, cubeTrue_iff.mp ha k hmem⟩
  refine List.all_eq_true.mpr fun c hc => htrue c ?_
  rcases hload.represents c hc with ⟨k, hk, hunit⟩ | ⟨x, hx, y, hy, himplied⟩ | ⟨cref, hcref, hsub⟩
  · exact ⟨k, hk, hV ▸ List.mem_append_left V hunit⟩
  · rcases hall x (hF c hc x hx) with hmem | hneg
    · exact ⟨x, hx, hmem⟩
    · exact ⟨y, hy, hC.closed.binary (-x) hneg y himplied⟩
  · rcases hC.closed.long cref hcref with ⟨q, hq, hmem⟩ | hcount
    · exact ⟨q, hsub q hq, hmem⟩
    · obtain ⟨k, hk, hopen⟩ := List.countP_pos_iff.mp (Nat.zero_lt_of_lt hcount)
      have hneg : -k ∉ C := of_decide_eq_true hopen
      have hkc := hsub k hk
      exact ⟨k, hkc, (hall k (hF c hc k hkc)).resolve_right hneg⟩

end Leaves

section Runs

variable {F : List Clause} {n limitNbCubes nbThreads : ℕ} {selectLitSet : Cube → List ℕ → ℕ}
  {s s' : System Reducer.Propagator}

/-- What is returned was in the queue. -/
theorem System.step_cubes {π : Type} {cfg : Config π} {s s' : System π} {act : Action}
    (h : s.step cfg act = some s') {c : Cube} (hc : c ∈ s'.cubes) : c ∈ s.cubes ∨ c ∈ s.queue := by
  cases System.step_cases h with
  | worker heq hmove => exact .inl hc
  | main now hmove =>
      generalize s.main = m at hmove
      cases hmove with
      | expand timeUp cBest rest e hq _ he =>
          rcases List.mem_append.mp hc with hc | hc
          · exact .inl hc
          · rcases createCubes_shape he with ⟨-, hdone, -⟩ | ⟨hdone, -⟩
            · rw [hdone] at hc
              rw [List.mem_singleton.mp hc, hq]
              exact .inr List.mem_cons_self
            · rw [hdone] at hc
              exact absurd hc List.not_mem_nil
      | drain unsat top rest hq =>
          rcases List.mem_append.mp hc with hc | hc
          · exact .inl hc
          · rw [List.mem_singleton.mp hc, hq]
            exact .inr List.mem_cons_self
      | _ => exact .inl hc

theorem System.cubes_proper {P₀ : Reducer.Propagator} (hselect : Selects selectLitSet)
    (hload : P₀.Loaded F n)
    (hr : Reachable (System.step (vendored selectLitSet n limitNbCubes))
      (System.init (vendored selectLitSet n limitNbCubes) P₀ nbThreads) s) :
    ∀ c ∈ s.cubes, Proper n P₀ c := by
  refine hr.invariant' (fun s => ∀ c ∈ s.cubes, Proper n P₀ c)
    (fun c hc => absurd hc List.not_mem_nil) fun t _ t' hrt ih _ hs c hc => ?_
  rcases System.step_cubes hs hc with hold | hqueue
  · exact ih c hold
  · exact (System.sane hselect hload hrt).cubes c (System.mem_everywhere.mpr (.inl hqueue))

/-- **What is put aside is a model.**  In every interleaving, a cube on which there is nothing left to
branch, be it returned, queued or with a thread, is satisfied by some assignment, and every assignment that
satisfies it satisfies the formula. -/
theorem System.leaves_are_models (hF : ∀ c ∈ F, ∀ l ∈ c, Valid n l) (hselect : Selects selectLitSet)
    (hload : (new n F).isUnsat = false)
    (hr : Reachable (System.step (vendored selectLitSet n limitNbCubes))
      (System.init (vendored selectLitSet n limitNbCubes) (new n F) nbThreads) s) {C : Cube}
    (hC : C ∈ s.cubes ∨ C ∈ s.everywhere) (hleaf : d4Next selectLitSet n C = none) :
    (∃ a, cubeTrue a C = true) ∧ ∀ a, cubeTrue a C = true → formulaTrue a F = true := by
  have hloaded := (new_loaded hF).1 hload
  have hproper : Proper n (new n F) C :=
    hC.elim (System.cubes_proper hselect hloaded hr C) ((System.sane hselect hloaded hr).cubes C)
  exact ⟨Proper.consistent hproper, fun a ha =>
    Proper.model hloaded hF hproper (complete_of_next hleaf) ha⟩

theorem System.leaves_are_models_implied : (∃ a, cubeTrue a [1, 2, -3] = true) ∧
    ∀ a, cubeTrue a [1, 2, -3] = true → formulaTrue a implied = true := by
  have hrun : (exec (System.step (vendored firstVar 3 4))
      (System.init (vendored firstVar 3 4) (new 3 implied) 1) firstSplit).map
        (fun s => s.pool.jobQueue) = some [[1, 2, -3], [-1]] := by
    decide +kernel
  obtain ⟨s, hs, hjobs⟩ := Option.map_eq_some_iff.mp hrun
  have hmem : [1, 2, -3] ∈ s.everywhere := by
    rw [System.mem_everywhere, show s.pool.jobQueue = _ from hjobs]
    exact .inr (.inr (.inl List.mem_cons_self))
  exact System.leaves_are_models valid_implied selects_firstVar (by decide +kernel)
    (Reaches.of_exec (fun _ _ _ => trivial) hs) (.inr hmem) (by decide +kernel)

end Runs

/-! ### Where the cubes are -/

section Transfer

variable {π π' : Type} {cfg : Config π} {cfg' : Config π'} {s s' : System π}

/-- The same state with another propagator. -/
def System.withPropagator (s : System π) (p : π') : System π' :=
  { propagator := p
    queue := s.queue
    cubes := s.cubes
    main := s.main
    pool := s.pool
    workers := s.workers }

/-- The main thread expands the top of the queue. -/
def System.Expands (cfg : Config π) (s s' : System π) : Prop :=
  ∃ timeUp cBest rest e, s.main = .loop ∧ s.queue = cBest :: rest ∧
    createCubes cfg.propagator cfg.next s.propagator cBest = some e ∧
    s' = { s with
      propagator := e.propagator
      queue := BinaryHeap.pop heavier s.queue
      cubes := s.cubes ++ e.done
      main := .submit timeUp e.pending }

/-- **Only expansions look at the propagator.** -/
theorem System.step_withPropagator (hlimit : cfg'.limitNbCubes = cfg.limitNbCubes) (p : π')
    {act : Action} (h : s.step cfg act = some s') :
    s.Expands cfg s' ∨ s'.main = .aborted ∨
      (s.withPropagator p).step cfg' act = some (s'.withPropagator p) := by
  cases act with
  | worker i sat =>
      obtain ⟨r, hpool, rfl⟩ := Option.map_eq_some_iff.mp h
      exact .inr (.inr (Option.map_eq_some_iff.mpr ⟨r, hpool, rfl⟩))
  | main now =>
      obtain ⟨q, queue, cubes, main, pool, workers⟩ := s
      cases main with
      | loop =>
          obtain rfl := Option.some.inj h
          cases queue with
          | nil => exact .inr (.inr rfl)
          | cons cBest rest =>
              by_cases hguard : now = false ∧ (cBest :: rest).length < cfg.limitNbCubes ∧
                  pool.inFlight = 0
              · cases he : createCubes cfg.propagator cfg.next q cBest with
                | none =>
                    refine .inr (.inl ?_)
                    simp only [expand, if_pos hguard, he]
                | some e =>
                    refine .inl ⟨now, cBest, rest, e, rfl, rfl, he, ?_⟩
                    simp only [expand, if_pos hguard, he]
              · refine .inr (.inr (congrArg some ?_))
                simp only [expand, System.withPropagator, hlimit, if_neg hguard]
      | submit timeUp pending =>
          cases pending <;> (obtain rfl := Option.some.inj h; exact .inr (.inr rfl))
      | collect timeUp block =>
          refine .inr (.inr ?_)
          simp only [System.step, Main.step] at h
          split at h
          · exact nomatch h
          · rename_i hresults
            obtain rfl := Option.some.inj h
            exact if_neg hresults
      | testLimit timeUp =>
          obtain rfl := Option.some.inj h
          refine .inr (.inr ?_)
          simp only [System.step, Main.step, System.withPropagator, hlimit]
      | drain unsat =>
          cases queue <;> (obtain rfl := Option.some.inj h; exact .inr (.inr rfl))
      | returned ok => exact nomatch h
      | aborted => exact nomatch h
      | _ => obtain rfl := Option.some.inj h; exact .inr (.inr rfl)

end Transfer

section Partition

variable {F : List Clause} {n limitNbCubes nbThreads : ℕ} {selectLitSet : Cube → List ℕ → ℕ}
  {P₀ : Reducer.Propagator} {s s' : System Reducer.Propagator} {a : Assignment}

/-- A run without expansions, of the same limit. -/
def unexpanded (limitNbCubes : ℕ) : Config Cube :=
  { propagator := .decisions, next := fun _ => none, limitNbCubes := limitNbCubes }

theorem System.Covered.expanded (h : s.Covered F a) (ha : formulaTrue a F = true) {timeUp : Bool}
    {cBest : Cube} {rest : List Cube} {e : Expansion Reducer.Propagator} (hloop : s.main = .loop)
    (hq : s.queue = cBest :: rest) (hexp : Expanded F n P₀ cBest e) :
    System.Covered F a { s with
      propagator := e.propagator
      queue := BinaryHeap.pop heavier s.queue
      cubes := s.cubes ++ e.done
      main := .submit timeUp e.pending } := by
  refine ⟨fun c hc => h.queued c ?_, h.answered, ?_⟩
  · rw [hq] at hc ⊢
    exact List.mem_cons_of_mem cBest ((BinaryHeap.pop_perm cBest rest).mem_iff.mp hc)
  · have hsplit := hexp.models a ha
    have hpop : hits a [cBest] + hits a (BinaryHeap.pop heavier s.queue) = hits a s.queue :=
      BinaryHeap.countP_pop hq
    have honce := h.once
    simp only [System.located, Main.pending, hloop, hits_append, hits_nil] at honce ⊢
    omega

theorem System.vendored_covered (hselect : Selects selectLitSet) (hload : P₀.Loaded F n)
    (ha : formulaTrue a F = true)
    (hr : Reaches (System.step (vendored selectLitSet n limitNbCubes)) (System.Answers F)
      (System.init (vendored selectLitSet n limitNbCubes) P₀ nbThreads) s) : s.Covered F a := by
  refine hr.invariant' (fun s => s.Covered F a) ?_ fun t act t' hrt h hg hs => ?_
  · obtain ⟨-, hstay, -⟩ := Loaded.propagate hload
    have htrue : cubeTrue a P₀.trail = true := by
      have hunits := hload.units a ha
      rwa [hload.limited, List.take_length] at hunits
    have hqueue : (System.init (vendored selectLitSet n limitNbCubes) P₀ nbThreads).queue =
        [P₀.trail] := congrArg (fun C => [C]) hstay
    refine ⟨fun c hc => ?_, fun c hc => absurd hc List.not_mem_nil, ?_⟩
    · rw [hqueue] at hc
      rw [List.mem_singleton.mp hc]
      exact ⟨a, ha, htrue⟩
    · rw [System.located, hqueue, hits_singleton, htrue]
      simp [System.init, Main.pending, satisfiable, Worker.cubes]
  · have hsane := System.sane hselect hload hrt.reachable
    have hrunning := (System.sane hselect hload (hrt.next hg hs).reachable).running
    have hlimit : (unexpanded limitNbCubes).limitNbCubes =
        (vendored selectLitSet n limitNbCubes).limitNbCubes := rfl
    have hstep := System.step_withPropagator hlimit [] hs
    rcases hstep with ⟨timeUp, cBest, rest, e, hloop, hq, he, rfl⟩ | habort | hsame
    · obtain ⟨e', he', hexp⟩ := hsane.createCubes hselect hload hq
      obtain rfl := Option.some.inj (he'.symm.trans he)
      exact h.expanded ha hloop hq hexp
    · exact absurd habort hrunning
    · have hcov : (t.withPropagator ([] : Cube)).Covered F a := ⟨h.queued, h.answered, h.once⟩
      have hnext : ∀ c v, (unexpanded limitNbCubes).next c = some v → v ≠ 0 := by
        intro c v hv
        exact absurd hv (by simp [unexpanded])
      obtain ⟨hqueued, hanswered, honce⟩ :=
        hcov.step (Propagator.decisions_sound F) hnext ha hg hsame
      exact ⟨hqueued, hanswered, honce⟩

/-- **The partition, with the propagator that is vendored.**  In runs that leave the loop only after the
satisfiable results are collected, the returned cubes are consistent, they contain the units of the
formula, and every model of the formula satisfies exactly one of them.  `false` is returned only if the
formula has no model. -/
theorem System.vendored_partition (hF : ∀ c ∈ F, ∀ l ∈ c, Valid n l) (hselect : Selects selectLitSet)
    (hload : (new n F).isUnsat = false)
    (hr : Reaches (System.step (vendored selectLitSet n limitNbCubes))
      (fun s act => s.Answers F act ∧ s.Collected (vendored selectLitSet n limitNbCubes) act)
      (System.init (vendored selectLitSet n limitNbCubes) (new n F) nbThreads) s) {ok : Bool}
    (hret : s.main = .returned ok) :
    (∀ c ∈ s.cubes, (∃ a, cubeTrue a c = true) ∧ ∃ V, c = (new n F).trail ++ V) ∧
      (∀ a, formulaTrue a F = true → hits a s.cubes = 1) ∧
      (ok = false → ∀ a, formulaTrue a F = false) := by
  have hloaded := (new_loaded hF).1 hload
  refine ⟨fun c hc => ?_, System.partition_of_covered (fun a ha _ hreach =>
    System.vendored_covered hselect hloaded ha hreach) hr hret⟩
  have hproper := System.cubes_proper hselect hloaded hr.reachable c hc
  exact ⟨Proper.consistent hproper, hproper.units⟩

/-- `Answers` on the two children of the first split, both of which have a model. -/
def System.impliedCheck (s : System Reducer.Propagator) : Action → Bool
  | .main _ => true
  | .worker i sat =>
      match s.workers[i]? with
      | some (.solving cube) => sat && (cube == [1, 2, -3] || cube == [-1])
      | _ => true

theorem System.answers_of_impliedCheck {act : Action} (h : s.impliedCheck act = true) :
    s.Answers implied act := by
  intro i sat cube hact hw
  subst hact
  simp only [System.impliedCheck, hw, Bool.or_eq_true, Bool.and_eq_true, beq_iff_eq] at h
  obtain ⟨rfl, hcube⟩ := h
  refine iff_of_true rfl ?_
  rcases hcube with rfl | rfl
  · exact ⟨fun v => v != 3, rfl, rfl⟩
  · exact ⟨fun v => v == 2, rfl, rfl⟩

/-- One thread solves both children before the main thread collects them. -/
def collected : List Action :=
  [firstSplit, List.replicate 6 (.worker 0 true), List.replicate 6 (.main false)].flatten

theorem System.vendored_partition_implied :
    ∃ s : System Reducer.Propagator, s.cubes = [[-1], [1, 2, -3]] ∧
      ∀ a, formulaTrue a implied = true → hits a s.cubes = 1 := by
  have hrun : (exec (fun s act => if System.impliedCheck s act && (act matches .worker _ _ ||
      s.collectedCheck) then System.step (vendored firstVar 3 2) s act else none)
      (.init (vendored firstVar 3 2) (new 3 implied) 1) collected).map System.outcome =
        some (some (true, [[-1], [1, 2, -3]])) := by
    decide +kernel
  obtain ⟨s, hs, hout⟩ := Option.map_eq_some_iff.mp hrun
  obtain ⟨hmain, hcubes⟩ := System.main_of_outcome hout
  have hr : Reaches (System.step (vendored firstVar 3 2)) (fun s act => s.Answers implied act ∧
      s.Collected (vendored firstVar 3 2) act) (.init (vendored firstVar 3 2) (new 3 implied) 1) s := by
    refine Reaches.of_exec_checked (fun s act h => ?_) hs
    obtain ⟨hans, hcol⟩ := Bool.and_eq_true_iff.mp h
    refine ⟨System.answers_of_impliedCheck hans, System.collected_of_check fun now hact => ?_⟩
    subst hact
    exact hcol
  exact ⟨s, hcubes, (System.vendored_partition valid_implied selects_firstVar (by decide +kernel) hr
    hmain).2.1⟩

end Partition

end HydraSAT.CubeGenerator
