import HydraSAT.CubeGenerator.Partition
import HydraSAT.Lib.HeapOrder

/-!
# The order and the size of the queue

Whatever the interleaving, the queue of `generate` is a heap, so that the main loop expands a shortest of
the queued cubes and the final loop pops them in order of length.

The test of the queue's size counts no answer that waits for its collection.  A cube is expanded while
up to two answers wait, so that the queue may pass the limit, but never by more than two.

* `System.Queued`: the heap, and the cubes that are open or answered besides those in the queue;
* `System.returns_in_order`: what is returned.
-/

namespace HydraSAT.CubeGenerator

open HydraSAT.Lib

variable {π : Type} {cfg : Config π} {s s' : System π}

/-! ### The shape of an expansion -/

theorem length_branch_le (E : Propagator π) (p : π) (l : ℤ) : (E.branch p l).2.length ≤ 1 := by
  unfold Propagator.branch
  split
  · exact Nat.le_refl 1
  · exact Nat.zero_le 1

/-- A cube is done when there is no variable to branch on, and has at most two children otherwise. -/
theorem createCubes_shape {E : Propagator π} {next : Cube → Option ℕ} {p : π} {lits : Cube}
    {e : Expansion π} (h : createCubes E next p lits = some e) :
    (next lits = none ∧ e.done = [lits] ∧ e.pending = []) ∨ (e.done = [] ∧ e.pending.length ≤ 2) := by
  unfold createCubes at h
  split at h
  · exact nomatch h
  · rename_i q _
    split at h
    · split at h
      · rename_i hnext
        obtain rfl := Option.some.inj h
        exact .inl ⟨hnext, rfl, rfl⟩
      · rename_i v _
        obtain rfl := Option.some.inj h
        refine .inr ⟨rfl, ?_⟩
        have hpos := length_branch_le E q v
        have hneg := length_branch_le E (E.cancelUntilPos (E.branch q v).1 (E.getTrail q).length) (-v)
        show ((E.branch q v).2 ++ _).length ≤ 2
        rw [List.length_append]
        omega
    · exact nomatch h

/-- A cube is expanded only while the queue is below the limit. -/
theorem expand_below {timeUp : Bool} (h : (expand cfg s timeUp).main ≠ .mustBlock timeUp) :
    s.queue.length < cfg.limitNbCubes := by
  unfold expand at h
  split at h
  · exact absurd rfl h
  · split at h
    · rename_i hguard
      exact hguard.2.1
    · exact absurd rfl h

theorem Main.step_below {now : Bool} (h : Main.step cfg s now = some s') (hloop : s.main = .loop)
    (hmoved : s'.main ≠ .mustBlock now) : s.queue.length < cfg.limitNbCubes := by
  unfold Main.step at h
  rw [hloop] at h
  obtain rfl := Option.some.inj h
  exact expand_below hmoved

/-! ### Where the cubes are -/

/-- The cubes on their way to an answer. -/
def System.onTheWay (s : System π) : ℕ :=
  s.main.pending.length + s.pool.jobQueue.length + (s.workers.map fun w => w.cubes.length).sum

/-- The main thread is past the collection of the current iteration. -/
def Main.collected : Main → Bool
  | .loop | .testEmpty _ | .testLimit _ | .testTime _ => true
  | _ => false

/-- **What every step keeps.**  The cubes put aside come first, then those drained from the queue. -/
structure System.Queued (cfg : Config π) (s : System π) : Prop where
  heap : BinaryHeap.IsHeap heavier s.queue
  onTheWay : s.onTheWay ≤ 2
  collected : s.main.collected = true → s.onTheWay + s.pool.results.length ≤ 2
  drained : ∃ done rest, s.cubes = done ++ rest ∧ (∀ c ∈ done, cfg.next c = none) ∧
    rest.Pairwise (fun c d => c.length ≤ d.length) ∧
    (∀ c ∈ rest, ∀ d ∈ s.queue, c.length ≤ d.length) ∧ (s.main.left = false → rest = []) ∧
    rest.length + s.queue.length + s.onTheWay + s.pool.results.length ≤ cfg.limitNbCubes + 2

theorem weighs_heavier : BinaryHeap.Weighs heavier := BinaryHeap.weighs_of_weight List.length

/-- The front of the queue is one of the shortest. -/
theorem front_le {queue rest : List Cube} {top : Cube} (h : BinaryHeap.IsHeap heavier queue)
    (hq : queue = top :: rest) : ∀ c ∈ queue, top.length ≤ c.length := by
  intro c hc
  rw [hq] at h hc
  exact not_lt.mp (of_decide_eq_false (h.front weighs_heavier c hc))

theorem collectResults_isHeap {queue : List Cube} (results : List (Cube × Bool))
    (h : BinaryHeap.IsHeap heavier queue) : BinaryHeap.IsHeap heavier (collectResults queue results) := by
  unfold collectResults
  induction results generalizing queue with
  | nil => exact h
  | cons r results ih =>
      rw [List.foldl_cons]
      refine ih ?_
      split
      · exact BinaryHeap.push_isHeap weighs_heavier h r.1
      · exact h

theorem length_collectResults_le (queue : List Cube) (results : List (Cube × Bool)) :
    (collectResults queue results).length ≤ queue.length + results.length := by
  have hkept : (satisfiable results).length ≤ results.length := by
    rw [satisfiable, List.length_map]
    exact List.length_filter_le _ results
  rw [(collectResults_perm queue results).length_eq, List.length_append]
  omega

/-! ### Steps -/

/-- A thread takes a job and answers it. -/
theorem WorkerMove.onTheWay {q q' : Pool} {w w' : Worker} {sat : Bool} (h : WorkerMove q w sat q' w') :
    q'.jobQueue.length + w'.cubes.length ≤ q.jobQueue.length + w.cubes.length ∧
      q'.jobQueue.length + q'.results.length + w'.cubes.length =
        q.jobQueue.length + q.results.length + w.cubes.length := by
  cases h with
  | take cube rest sat hjobs =>
      rw [hjobs]
      simp only [Worker.cubes, List.length_cons, List.length_nil]
      omega
  | append cube sat =>
      simp only [Worker.cubes, List.length_append, List.length_cons, List.length_nil]
      omega
  | decrement sat => exact ⟨Nat.le_refl _, rfl⟩

theorem System.Queued.worker (h : s.Queued cfg) {pre post : List Worker} {w w' : Worker} {sat : Bool}
    {q : Pool} (heq : s.workers = pre ++ w :: post) (hmove : WorkerMove s.pool w sat q w') :
    System.Queued cfg { s with pool := q, workers := pre ++ w' :: post } := by
  obtain ⟨hle, hsum⟩ := hmove.onTheWay
  have hold : s.onTheWay = s.main.pending.length + s.pool.jobQueue.length +
      ((pre.map fun w => w.cubes.length).sum + (w.cubes.length +
        (post.map fun w => w.cubes.length).sum)) := by
    rw [System.onTheWay, heq, List.map_append, List.sum_append, List.map_cons, List.sum_cons]
  have hnew : System.onTheWay { s with pool := q, workers := pre ++ w' :: post } =
      s.main.pending.length + q.jobQueue.length + ((pre.map fun w => w.cubes.length).sum +
        (w'.cubes.length + (post.map fun w => w.cubes.length).sum)) := by
    rw [System.onTheWay, List.map_append, List.sum_append, List.map_cons, List.sum_cons]
  have hway := h.onTheWay
  refine ⟨h.heap, by omega, fun hcol => ?_, ?_⟩
  · have hbound := h.collected hcol
    show System.onTheWay _ + q.results.length ≤ 2
    omega
  · obtain ⟨done, rest, hcubes, hdone, hsorted, hbefore, hrest, hsize⟩ := h.drained
    refine ⟨done, rest, hcubes, hdone, hsorted, hbefore, hrest, ?_⟩
    show rest.length + s.queue.length + System.onTheWay _ + q.results.length ≤ _
    omega

/-- A step that moves no cube keeps the invariant. -/
theorem System.Queued.of_eq (h : s.Queued cfg) (hqueue : s'.queue = s.queue) (hcubes : s'.cubes = s.cubes)
    (hresults : s'.pool.results = s.pool.results) (hway : s'.onTheWay = s.onTheWay)
    (hcol : s'.main.collected = true → s.main.collected = true)
    (hdrains : s'.main.left = false → s.main.left = false) : s'.Queued cfg := by
  refine ⟨hqueue ▸ h.heap, hway ▸ h.onTheWay, fun hc => ?_, ?_⟩
  · rw [hway, hresults]
    exact h.collected (hcol hc)
  · obtain ⟨done, rest, heq, hdone, hsorted, hbefore, hrest, hsize⟩ := h.drained
    refine ⟨done, rest, hcubes.trans heq, hdone, hsorted, hqueue ▸ hbefore,
      fun hd => hrest (hdrains hd), ?_⟩
    rwa [hqueue, hway, hresults]

/-- **An expansion** happens below the limit, with nothing on its way, and puts at most two cubes on
their way. -/
theorem System.Queued.expand (h : s.Queued cfg) {timeUp : Bool} {cBest : Cube} {rest : List Cube}
    {e : Expansion π} (hloop : s.main = .loop) (hq : s.queue = cBest :: rest) (hidle : s.onTheWay = 0)
    (hbelow : s.queue.length < cfg.limitNbCubes)
    (he : createCubes cfg.propagator cfg.next s.propagator cBest = some e) :
    System.Queued cfg { s with
      propagator := e.propagator
      queue := BinaryHeap.pop heavier s.queue
      cubes := s.cubes ++ e.done
      main := .submit timeUp e.pending } := by
  have hpop := @BinaryHeap.length_pop _ heavier s.queue
  have hbound := h.collected (by rw [hloop]; rfl)
  obtain ⟨hdone', hpending⟩ : (∀ c ∈ e.done, cfg.next c = none) ∧ e.pending.length ≤ 2 := by
    rcases createCubes_shape he with ⟨hnone, hd, hp⟩ | ⟨hd, hp⟩
    · rw [hd, hp]
      exact ⟨fun c hc => List.mem_singleton.mp hc ▸ hnone, Nat.zero_le 2⟩
    · rw [hd]
      exact ⟨fun c hc => absurd hc List.not_mem_nil, hp⟩
  have hway : System.onTheWay { s with
      propagator := e.propagator
      queue := BinaryHeap.pop heavier s.queue
      cubes := s.cubes ++ e.done
      main := .submit timeUp e.pending } = e.pending.length := by
    unfold System.onTheWay at hidle ⊢
    simp only [Main.pending]
    omega
  refine ⟨BinaryHeap.pop_isHeap weighs_heavier h.heap, hway ▸ hpending,
    fun hcol => Bool.noConfusion hcol, ?_⟩
  obtain ⟨done, tail, hcubes, hdone, hsorted, hbefore, hrest, hsize⟩ := h.drained
  obtain rfl := hrest (by rw [hloop]; rfl)
  refine ⟨done ++ e.done, [], ?_, ?_, List.Pairwise.nil, fun c hc => absurd hc List.not_mem_nil,
    fun _ => rfl, ?_⟩
  · show s.cubes ++ e.done = _
    rw [hcubes, List.append_nil, List.append_nil]
  · exact fun c hc => (List.mem_append.mp hc).elim (hdone c) (hdone' c)
  · rw [hway]
    show 0 + (BinaryHeap.pop heavier s.queue).length + e.pending.length + s.pool.results.length ≤ _
    have hpos : 0 < s.queue.length := by
      rw [hq]
      exact Nat.succ_pos _
    omega

/-- Collecting empties the results. -/
theorem System.Queued.collect (h : s.Queued cfg) {timeUp block : Bool}
    (hm : s.main = .collect timeUp block) :
    System.Queued cfg { s with
      queue := collectResults s.queue s.pool.results
      pool := { s.pool with results := [] }
      main := .testEmpty timeUp } := by
  have hlen := length_collectResults_le s.queue s.pool.results
  have hway : System.onTheWay { s with
      queue := collectResults s.queue s.pool.results
      pool := { s.pool with results := [] }
      main := .testEmpty timeUp } = s.onTheWay := by
    rw [System.onTheWay, System.onTheWay, hm]
    rfl
  refine ⟨collectResults_isHeap _ h.heap, hway ▸ h.onTheWay, fun _ => hway ▸ h.onTheWay, ?_⟩
  obtain ⟨done, rest, hcubes, hdone, hsorted, -, hrest, hsize⟩ := h.drained
  obtain rfl := hrest (by rw [hm]; rfl)
  refine ⟨done, [], hcubes, hdone, hsorted, fun c hc => absurd hc List.not_mem_nil, fun _ => rfl, ?_⟩
  rw [hway]
  show 0 + (collectResults s.queue s.pool.results).length + s.onTheWay + 0 ≤ _
  rw [List.length_nil] at hsize
  omega

/-- **Draining** appends a shortest of the queued cubes. -/
theorem System.Queued.drain (h : s.Queued cfg) {unsat : Bool} {top : Cube} {tail : List Cube}
    (hm : s.main = .drain unsat) (hq : s.queue = top :: tail) :
    System.Queued cfg { s with
      cubes := s.cubes ++ [top], queue := BinaryHeap.pop heavier s.queue } := by
  have hpop : (BinaryHeap.pop heavier s.queue).Perm tail := hq ▸ BinaryHeap.pop_perm top tail
  have hmem : ∀ d ∈ BinaryHeap.pop heavier s.queue, d ∈ s.queue := fun d hd => by
    rw [hq]
    exact List.mem_cons_of_mem top (hpop.mem_iff.mp hd)
  have hfront := front_le h.heap hq
  refine ⟨BinaryHeap.pop_isHeap weighs_heavier h.heap, h.onTheWay,
    fun hcol => h.collected hcol, ?_⟩
  obtain ⟨done, rest, hcubes, hdone, hsorted, hbefore, -, hsize⟩ := h.drained
  have htop : top ∈ s.queue := by
    rw [hq]
    exact List.mem_cons_self
  refine ⟨done, rest ++ [top], ?_, hdone, ?_, ?_, fun hd => ?_, ?_⟩
  · show s.cubes ++ [top] = _
    rw [hcubes, List.append_assoc]
  · refine List.pairwise_append.mpr ⟨hsorted, List.pairwise_singleton _ _, fun c hc d hd => ?_⟩
    rw [List.mem_singleton.mp hd]
    exact hbefore c hc top htop
  · intro c hc d hd
    rcases List.mem_append.mp hc with hc | hc
    · exact hbefore c hc d (hmem d hd)
    · rw [List.mem_singleton.mp hc]
      exact hfront d (hmem d hd)
  · replace hd : s.main.left = false := hd
    rw [hm] at hd
    exact Bool.noConfusion hd
  · have hlen := hpop.length_eq
    have hqlen : s.queue.length = tail.length + 1 := by
      rw [hq]
      rfl
    show (rest ++ [top]).length + (BinaryHeap.pop heavier s.queue).length + s.onTheWay +
      s.pool.results.length ≤ _
    rw [List.length_append, List.length_singleton]
    omega

/-- Nothing is on its way while `m_inFlight` is 0 and the main thread is not submitting. -/
theorem System.onTheWay_eq_zero (hcount : s.pool.inFlight = s.jobs) (hzero : s.pool.inFlight = 0)
    (hloop : s.main = .loop) : s.onTheWay = 0 := by
  have hworkers : ∀ ws : List Worker, ((ws.map fun w => w.cubes.length).sum : ℕ) ≤
      (ws.map Worker.counted).sum := by
    intro ws
    induction ws with
    | nil => exact le_refl 0
    | cons w ws ih =>
        have hone : (w.cubes.length : ℤ) ≤ w.counted := by
          cases w <;> simp [Worker.cubes, Worker.counted]
        rw [List.map_cons, List.sum_cons, List.map_cons, List.sum_cons, Nat.cast_add]
        exact add_le_add hone ih
  have hle := hworkers s.workers
  rw [hcount, System.jobs, hloop] at hzero
  simp only [Main.counted] at hzero
  unfold System.onTheWay
  rw [hloop]
  simp only [Main.pending, List.length_nil]
  omega

theorem System.Queued.step (h : s.Queued cfg) (hcount : s.pool.inFlight = s.jobs) {act : Action}
    (hs : s.step cfg act = some s') : s'.Queued cfg := by
  cases System.step_cases hs with
  | @worker pre w post sat q w' heq hmove => exact h.worker heq hmove
  | main now hmove =>
      have hbelow := Main.step_below hs
      generalize hm : s.main = m at hmove
      have hsame : ∀ t : System π, t.queue = s.queue → t.cubes = s.cubes → t.pool = s.pool →
          t.workers = s.workers → t.main.pending = m.pending →
          (t.main.collected = true → m.collected = true) →
          (t.main.left = false → m.left = false) → t.Queued cfg := by
        intro t hq hc hp hw hpend hcol hdr
        refine h.of_eq hq hc (by rw [hp]) ?_ (hm ▸ hcol) (hm ▸ hdr)
        rw [System.onTheWay, System.onTheWay, hp, hw, hpend, hm]
      cases hmove with
      | expand timeUp cBest rest e hq hzero he =>
          exact h.expand hm hq (System.onTheWay_eq_zero hcount hzero hm) (hbelow hm (by simp)) he
      | submit timeUp cube pending =>
          refine h.of_eq rfl rfl rfl ?_ (fun hc => Bool.noConfusion hc) fun _ => by rw [hm]; rfl
          rw [System.onTheWay, System.onTheWay, hm]
          rfl
      | push timeUp cube pending =>
          refine h.of_eq rfl rfl rfl ?_ (fun hc => Bool.noConfusion hc) fun _ => by rw [hm]; rfl
          rw [System.onTheWay, System.onTheWay, hm]
          simp only [Main.pending, List.length_append, List.length_cons, List.length_nil]
          omega
      | collect timeUp block _ => exact h.collect hm
      | drain unsat top rest hq => exact h.drain hm hq
      | _ =>
          refine hsame _ ?_ ?_ ?_ ?_ ?_ ?_ ?_
          all_goals first
            | rfl
            | exact fun _ => rfl
            | exact fun hfalse => Bool.noConfusion hfalse

/-! ### Runs -/

theorem System.queued {p : π} {nbThreads : ℕ} (hr : Reachable (System.step cfg) (init cfg p nbThreads) s) :
    s.Queued cfg := by
  refine hr.invariant' (System.Queued cfg) ?_ fun t _ _ hrt h _ hs =>
    h.step (System.inFlight_eq hrt) hs
  have hperm (c : Cube) : (BinaryHeap.push heavier [] c).Perm [c] := BinaryHeap.push_perm [] c
  have hone : (init cfg p nbThreads).queue.length = 1 := (hperm _).length_eq
  have hway : (init cfg p nbThreads).onTheWay = 0 := by
    simp [System.onTheWay, System.init, Main.pending, Worker.cubes]
  refine ⟨BinaryHeap.push_isHeap weighs_heavier (fun i p c _ hp _ => absurd hp (by simp)) _,
    by omega, fun _ => by rw [hway]; exact Nat.zero_le 2, [], [], rfl,
    fun c hc => absurd hc List.not_mem_nil, List.Pairwise.nil, fun c hc => absurd hc List.not_mem_nil,
    fun _ => rfl, ?_⟩
  rw [hone, hway]
  show 0 + 1 + 0 + 0 ≤ cfg.limitNbCubes + 2
  omega

/-- **What is returned, and in which order.**  In every interleaving the queue holds at most two cubes more
than the limit, with a shortest of them in front.  The returned cubes are those on which there was
nothing left to branch, and behind them the rest in order of length. -/
theorem System.returns_in_order {p : π} {nbThreads : ℕ}
    (hr : Reachable (System.step cfg) (System.init cfg p nbThreads) s) :
    s.queue.length ≤ cfg.limitNbCubes + 2 ∧
      (∀ top rest, s.queue = top :: rest → ∀ c ∈ rest, top.length ≤ c.length) ∧
      ∀ ok, s.main = .returned ok → ∃ done rest, s.cubes = done ++ rest ∧
        (∀ c ∈ done, cfg.next c = none) ∧ rest.length ≤ cfg.limitNbCubes + 2 ∧
        rest.Pairwise fun c d => c.length ≤ d.length := by
  have h := System.queued hr
  obtain ⟨done, rest, hcubes, hdone, hsorted, -, -, hsize⟩ := h.drained
  refine ⟨by omega, fun top tail hq c hc => ?_, fun ok _ => ⟨done, rest, hcubes, hdone, by omega, hsorted⟩⟩
  refine front_le h.heap hq c ?_
  rw [hq]
  exact List.mem_cons_of_mem top hc

/-- One thread answers two cubes. -/
def twoAnswers : List Action := List.replicate 6 (.worker 0 true)

/-- Every expansion starts before the answers to the last one are collected; the last ones are collected
only after the queue has reached its limit. -/
def overfull : List Action :=
  [firstSplit, List.replicate 2 (.worker 0 true), [.main false], List.replicate 4 (.worker 0 true),
    List.replicate 3 (.main false), firstSplit, [.main false], twoAnswers,
    List.replicate 3 (.main false), firstSplit, List.replicate 6 (.main false), twoAnswers,
    List.replicate 8 (.main false)].flatten

theorem System.returns_in_order_overfull : ∃ s : System Cube,
    s.cubes.length = threeVars.limitNbCubes + 2 ∧ ∃ done rest, s.cubes = done ++ rest ∧
      (∀ c ∈ done, threeVars.next c = none) ∧ rest.length ≤ threeVars.limitNbCubes + 2 ∧
      rest.Pairwise fun c d => c.length ≤ d.length := by
  have hrun : (exec (System.step threeVars) (.init threeVars [] 1) overfull).map System.outcome =
      some (some (true, [[1, 2], [-1, 2], [1, -2], [-1, -2]])) := by
    decide +kernel
  obtain ⟨s, hs, hout⟩ := Option.map_eq_some_iff.mp hrun
  obtain ⟨hmain, hcubes⟩ := System.main_of_outcome hout
  have hr : Reachable (System.step threeVars) (.init threeVars [] 1) s :=
    .of_exec (fun _ _ _ => trivial) hs
  exact ⟨s, by rw [hcubes]; rfl, (System.returns_in_order hr).2.2 true hmain⟩

end HydraSAT.CubeGenerator
