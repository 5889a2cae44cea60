import HydraSAT.CubeGenCli.Termination
import HydraSAT.CubeGenCli.TrailVector

/-!
# The branch copies of cube_gen

`createCubes` calls `getTrail()` once and copies both branches through that pointer.  In between,
`uncheckedEnqueue` and `propagate` append to `m_trail`; the pointer is good as long as none of these
`push_back`s finds the vector full.  Nothing has been appended before the first expansion, so that the
first `push_back` of its first branch already moves the vector.

* `Buffered.createCubes`: the expansion with its copies read through the pointer;
* `Buffered.createCubes_forget`: a defined expansion is the one that reads the live trail;
* `Buffered.posEnd_live_iff`, `Buffered.negEnd_live_iff`: a copy is defined exactly if every trail
  since `getTrail()` fits the capacity;
* `Buffered.live_of_room`: with room for every variable all copies of a run are defined;
* `Buffered.copies_live_iff`: in the program they are only if no run makes a copy.
-/

namespace HydraSAT.CubeGenCli.Buffered

open HydraSAT.Lib

/-! ### The code -/

/-- The state of the generator, with the vector of the trail. -/
structure State where
  propagator : Buffered
  queue : List Cube
  cubes : List Cube
  pruned : ℕ

/-- Fill the propagator with the literals of a cube. -/
def fill (g : Growth) (B : Buffered) (lits : Cube) : Buffered :=
  lits.foldl (fun B l => if 1 < B.propagator.value l then B.uncheckedEnqueue g l else B) B

/-- One branch, with the copy of the trail read through `trail`; `none` if that yields nothing. -/
def branch (g : Growth) (trail : ℕ) (s : State) (l : ℤ) : Option State :=
  match (s.propagator.uncheckedEnqueue g l).propagate g with
  | (true, B) => (B.copy trail).map fun lits =>
      { s with propagator := B, queue := BinaryHeap.push heavier s.queue lits }
  | (false, B) => some { s with propagator := B, pruned := s.pruned + 1 }

/-- Both branches on `v`, with one call of `getTrail()`, then the pop of the expanded cube. -/
def split (g : Growth) (s : State) (v : ℕ) : Option State :=
  (branch g s.propagator.getTrail s v).bind fun pos =>
    (branch g s.propagator.getTrail
      { pos with propagator := pos.propagator.cancelUntilPos s.propagator.getTrailSize } (-v)).map
        fun neg => { neg with queue := BinaryHeap.pop heavier neg.queue }

def createCubes (cfg : Config) (g : Growth) (s : State) : Option State :=
  match s.queue with
  | [] => some s
  | cBest :: _ =>
      match (fill g s.propagator.restart cBest).propagate g with
      | (ok, B) =>
          if ok = false ∨ B.propagator.unsat = true then
            some { s with
              propagator := B
              queue := BinaryHeap.pop heavier s.queue
              pruned := s.pruned + 1 }
          else
            match next cfg cBest with
            | none =>
                some { s with
                  propagator := B
                  queue := BinaryHeap.pop heavier s.queue
                  cubes := s.cubes ++ [cBest] }
            | some v => split g { s with propagator := B } v

/-- `initPropagator` and `initQueue`, which reads the trail before anything is appended to it. -/
def init (cfg : Config) (g : Growth) : State :=
  { propagator := ((new cfg.nbVar cfg.clauses).propagate g).2
    queue := BinaryHeap.push heavier [] ((new cfg.nbVar cfg.clauses).propagate g).2.m_trail.elems
    cubes := []
    pruned := 0 }

/-- An iteration of the loop of `generate`.  Nothing follows an expansion with an undefined copy. -/
def State.step (cfg : Config) (g : Growth) (s : State) (_ : Unit) : Option State :=
  if s.queue.length < cfg.numCubes ∧ s.queue ≠ [] then createCubes cfg g s else none

/-! ### What the copies read -/

/-- The propagator of the front of the queue, at the call of `getTrail()`. -/
def refilled (g : Growth) (s : State) (c : Cube) : Buffered :=
  ((fill g s.propagator.restart c).propagate g).2

/-- The positive branch, when `litPos` is constructed. -/
def posEnd (g : Growth) (B : Buffered) (v : ℕ) : Bool × Buffered :=
  (B.uncheckedEnqueue g v).propagate g

/-- The negative branch, when `litNeg` is constructed. -/
def negEnd (g : Growth) (B : Buffered) (v : ℕ) : Bool × Buffered :=
  (((posEnd g B v).2.cancelUntilPos B.getTrailSize).uncheckedEnqueue g (-v)).propagate g

/-- From `B`, where `getTrail()` is called, to `B'`, where the trail is copied, no `push_back` grows
the vector, and the copy is defined and equals the trail. -/
structure Live (B B' : Buffered) : Prop where
  capacity : B'.m_trail.capacity = B.m_trail.capacity
  copied : B'.copy B.getTrail = some B'.propagator.trail

/-- The copies of both branches on `v`, as far as they are made, read a live trail. -/
def BothLive (g : Growth) (B : Buffered) (v : ℕ) : Prop :=
  ((posEnd g B v).1 = true → Live B (posEnd g B v).2) ∧
    ((negEnd g B v).1 = true → Live B (negEnd g B v).2)

/-- Every copy that the next expansion makes reads a live trail. -/
def State.CopiesLive (cfg : Config) (g : Growth) (s : State) : Prop :=
  ∀ top rest v, s.queue.length < cfg.numCubes → s.queue = top :: rest →
    ((fill g s.propagator.restart top).propagate g).1 = true →
    (refilled g s top).propagator.unsat = false → next cfg top = some v →
    BothLive g (refilled g s top) v

variable {g : Growth} {B B' : Buffered} {s₀ s s' : State} {top : Cube} {rest : List Cube}
  {cfg : Config} {v : ℕ}

/-- After some `push_back`s, either the trail fits and nothing has moved, or the vector has moved. -/
theorem Pushes.block_eq_iff (h : Pushes g B B') :
    B'.m_trail.block = B.m_trail.block ↔ B'.getTrailSize ≤ B.m_trail.capacity := by
  obtain ⟨more, hmore⟩ := h
  have hsize : B'.getTrailSize = B.m_trail.elems.length + more.length := by
    rw [getTrailSize, hmore, Buffer.elems_pushAll, List.length_append]
  rw [hsize, hmore]
  rcases Nat.lt_or_ge B.m_trail.capacity (B.m_trail.elems.length + more.length) with hlt | hroom
  · exact iff_of_false (Buffer.pushAll_moves hlt g).1.ne' (Nat.not_le.mpr hlt)
  · exact iff_of_true (Buffer.pushAll_room hroom g).1 hroom

theorem Pushes.later (h : Pushes g B B') : Buffer.Later B.m_trail B'.m_trail := by
  obtain ⟨more, hmore⟩ := h
  rw [hmore]
  exact Buffer.later_pushAll g B.m_trail more

/-- A pointer yields something exactly if its block is still in use. -/
theorem copy_ne_none_iff (B B' : Buffered) :
    B'.copy B.getTrail ≠ none ↔ B'.m_trail.block = B.m_trail.block := by
  constructor
  · intro h
    by_contra hne
    exact h (Buffer.read_stale (fun heq => hne heq.symm) _)
  · intro h
    have hread : B'.copy B.getTrail = some B'.m_trail.elems := Buffer.read_data h.symm
    rw [hread]
    exact Option.some_ne_none _

/-- What a pointer yields is the trail. -/
theorem eq_of_copy {p : ℕ} {lits : Cube} (h : B.copy p = some lits) : lits = B.propagator.trail := by
  obtain ⟨-, hlits⟩ := (Option.ite_none_right_eq_some).mp h
  rw [getTrailSize, List.take_length] at hlits
  exact (Option.some.inj hlits).symm.trans B.holds

theorem live_iff (h : Buffer.Later B.m_trail B'.m_trail) :
    Live B B' ↔ B'.m_trail.block = B.m_trail.block := by
  rw [← copy_ne_none_iff]
  constructor
  · intro hlive hnone
    exact Option.some_ne_none _ (hlive.copied.symm.trans hnone)
  · intro hcopy
    have hblock := (copy_ne_none_iff B B').mp hcopy
    obtain ⟨lits, hlits⟩ := Option.ne_none_iff_exists'.mp hcopy
    refine ⟨?_, eq_of_copy hlits ▸ hlits⟩
    exact (h.resolve_right fun hmoved => hmoved.1.ne' hblock).2

theorem posEnd_pushes (g : Growth) (B : Buffered) (v : ℕ) : Pushes g B (posEnd g B v).2 :=
  (enqueue_pushes g B v).trans (propagate_pushes g _)

theorem negEnd_pushes (g : Growth) (B : Buffered) (v : ℕ) :
    Pushes g ((posEnd g B v).2.cancelUntilPos B.getTrailSize) (negEnd g B v).2 :=
  (enqueue_pushes g _ _).trans (propagate_pushes g _)

theorem negEnd_later (g : Growth) (B : Buffered) (v : ℕ) :
    Buffer.Later B.m_trail (negEnd g B v).2.m_trail :=
  ((posEnd_pushes g B v).later.trans (Buffer.later_truncate _ B.getTrailSize)).trans
    (negEnd_pushes g B v).later

/-- **The positive copy** is defined exactly if the trail it copies fits the capacity. -/
theorem posEnd_live_iff (g : Growth) (B : Buffered) (v : ℕ) : Live B (posEnd g B v).2 ↔
    (posEnd g B v).2.getTrailSize ≤ B.m_trail.capacity := by
  rw [live_iff (posEnd_pushes g B v).later, (posEnd_pushes g B v).block_eq_iff]

/-- **The negative copy** is defined exactly if in addition the trail of the positive branch did,
whether that was copied or not. -/
theorem negEnd_live_iff (g : Growth) (B : Buffered) (v : ℕ) : Live B (negEnd g B v).2 ↔
    (posEnd g B v).2.getTrailSize ≤ B.m_trail.capacity ∧
      (negEnd g B v).2.getTrailSize ≤ B.m_trail.capacity := by
  have hback : Buffer.Later B.m_trail
      ((posEnd g B v).2.cancelUntilPos B.getTrailSize).m_trail :=
    (posEnd_pushes g B v).later.trans (Buffer.later_truncate _ B.getTrailSize)
  have hlast := (negEnd_pushes g B v).later
  rw [live_iff (negEnd_later g B v), ← (posEnd_pushes g B v).block_eq_iff]
  have hsame : ((posEnd g B v).2.cancelUntilPos B.getTrailSize).m_trail.block =
      (posEnd g B v).2.m_trail.block := rfl
  have hfits := (negEnd_pushes g B v).block_eq_iff
  rw [hsame] at hfits
  unfold Buffer.Later at hback hlast
  constructor
  · intro hblock
    have hstill : (posEnd g B v).2.m_trail.block = B.m_trail.block := by omega
    exact ⟨hstill, by omega⟩
  · rintro ⟨hstill, hle⟩
    omega

/-! ### The expansion that reads the live trail -/

/-- The state without the vector. -/
def State.forget (s : State) : CubeGenCli.State where
  propagator := s.propagator.propagator
  queue := s.queue
  cubes := s.cubes
  pruned := s.pruned

theorem fill_forget (g : Growth) (B : Buffered) (lits : Cube) :
    (fill g B lits).propagator = CubeGenCli.fill B.propagator lits := by
  unfold fill CubeGenCli.fill
  induction lits generalizing B with
  | nil => rfl
  | cons l lits ih =>
      rw [List.foldl_cons, List.foldl_cons, ih]
      split <;> rfl

theorem branch_forget {trail : ℕ} {l : ℤ} (h : branch g trail s l = some s') :
    s'.forget = CubeGenCli.branch s.forget l := by
  have hprop := propagate_forget g (s.propagator.uncheckedEnqueue g l)
  have henqueue : (s.propagator.uncheckedEnqueue g l).propagator =
      s.forget.propagator.uncheckedEnqueue l := rfl
  rw [henqueue] at hprop
  unfold branch at h
  unfold CubeGenCli.branch
  rw [hprop]
  rcases hout : (s.propagator.uncheckedEnqueue g l).propagate g with ⟨_ | _, B⟩
  · rw [hout] at h
    rw [← Option.some.inj h]
    rfl
  · rw [hout] at h
    obtain ⟨lits, hcopy, hs'⟩ := Option.map_eq_some_iff.mp h
    rw [eq_of_copy hcopy] at hs'
    rw [← hs']
    rfl

theorem split_forget (h : split g s v = some s') : s'.forget = CubeGenCli.split s.forget v := by
  obtain ⟨pos, hpos, hrest⟩ := Option.bind_eq_some_iff.mp h
  obtain ⟨neg, hneg, rfl⟩ := Option.map_eq_some_iff.mp hrest
  have hfirst := branch_forget hpos
  have hsecond := branch_forget hneg
  have hsize : s.propagator.getTrailSize = s.forget.propagator.trail.length :=
    congrArg List.length s.propagator.holds
  have hback : State.forget
      { pos with propagator := pos.propagator.cancelUntilPos s.propagator.getTrailSize } =
      between s.forget v := by
    rw [between, ← hfirst, hsize]
    rfl
  rw [hback] at hsecond
  show _ = { CubeGenCli.branch (between s.forget v) (-v) with
    queue := BinaryHeap.pop heavier (CubeGenCli.branch (between s.forget v) (-v)).queue }
  rw [← hsecond]
  rfl

/-- **A defined expansion** is the one that reads the trail as it is at the time. -/
theorem createCubes_forget (h : createCubes cfg g s = some s') :
    s'.forget = CubeGenCli.createCubes cfg s.forget := by
  unfold createCubes at h
  unfold CubeGenCli.createCubes
  have hqueue : s.forget.queue = s.queue := rfl
  rw [hqueue]
  rcases hq : s.queue with _ | ⟨top, rest⟩
  · rw [hq] at h
    rw [← Option.some.inj h]
  · have hfill : CubeGenCli.fill s.forget.propagator.restart top =
        (fill g s.propagator.restart top).propagator := 
      (fill_forget g s.propagator.restart top).symm
    simp only [hq] at h
    simp only [hfill, propagate_forget g]
    split at h
    · rename_i hconflict
      rw [if_pos hconflict, ← Option.some.inj h, ← hq]
      rfl
    · rename_i hok
      rw [if_neg hok]
      rcases hnext : next cfg top with _ | v
      · rw [hnext] at h
        rw [← Option.some.inj h, ← hq]
        rfl
      · rw [hnext] at h
        rw [split_forget h]
        rfl

/-! ### One expansion -/

/-- What the expansion does: prune the cube, put it aside, or split it. -/
theorem createCubes_cases (cfg : Config) (g : Growth) (hq : s.queue = top :: rest) :
    ((((fill g s.propagator.restart top).propagate g).1 = false ∨
        (refilled g s top).propagator.unsat = true) ∧
      createCubes cfg g s = some { s with
        propagator := refilled g s top
        queue := BinaryHeap.pop heavier s.queue
        pruned := s.pruned + 1 }) ∨
    (next cfg top = none ∧ createCubes cfg g s = some { s with
      propagator := refilled g s top
      queue := BinaryHeap.pop heavier s.queue
      cubes := s.cubes ++ [top] }) ∨
    ∃ v, next cfg top = some v ∧ ((fill g s.propagator.restart top).propagate g).1 = true ∧
      (refilled g s top).propagator.unsat = false ∧
      createCubes cfg g s = split g { s with propagator := refilled g s top } v := by
  refine expansion_cases _ _ (next cfg top) _ _ (fun v => split g _ v) ?_
  simp only [createCubes, hq]
  rfl

/-- A branch is defined unless it makes a copy that is not. -/
theorem branch_ne_none_iff (g : Growth) (trail : ℕ) (s : State) (l : ℤ) :
    branch g trail s l ≠ none ↔
      (((s.propagator.uncheckedEnqueue g l).propagate g).1 = true →
        ((s.propagator.uncheckedEnqueue g l).propagate g).2.copy trail ≠ none) := by
  unfold branch
  rcases (s.propagator.uncheckedEnqueue g l).propagate g with ⟨_ | _, B⟩
  · exact iff_of_true (Option.some_ne_none _) fun h => absurd h Bool.false_ne_true
  · show Option.map _ (B.copy trail) ≠ none ↔ (true = true → B.copy trail ≠ none)
    rw [Ne, Option.map_eq_none_iff]
    exact ⟨fun h _ => h, fun h => h rfl⟩

theorem propagator_of_branch {trail : ℕ} {l : ℤ} (h : branch g trail s l = some s') :
    s'.propagator = ((s.propagator.uncheckedEnqueue g l).propagate g).2 := by
  unfold branch at h
  rcases hout : (s.propagator.uncheckedEnqueue g l).propagate g with ⟨_ | _, B⟩
  · rw [hout] at h
    rw [← Option.some.inj h]
  · rw [hout] at h
    obtain ⟨lits, -, rfl⟩ := Option.map_eq_some_iff.mp h
    rfl

theorem negEnd_eq {pos : State} (hpos : branch g s.propagator.getTrail s v = some pos) :
    negEnd g s.propagator v = ((pos.propagator.cancelUntilPos
      s.propagator.getTrailSize).uncheckedEnqueue g (-v)).propagate g := by
  rw [negEnd, posEnd, propagator_of_branch hpos]

/-- **A split is defined exactly if both copies are live.** -/
theorem split_ne_none_iff (g : Growth) (s : State) (v : ℕ) :
    split g s v ≠ none ↔ BothLive g s.propagator v := by
  have hposcopy := copy_ne_none_iff s.propagator (posEnd g s.propagator v).2
  have hnegcopy := copy_ne_none_iff s.propagator (negEnd g s.propagator v).2
  rw [← live_iff (posEnd_pushes g _ v).later] at hposcopy
  rw [← live_iff (negEnd_later g _ v)] at hnegcopy
  have hbranch := branch_ne_none_iff g s.propagator.getTrail s v
  unfold split BothLive
  rw [← hposcopy, ← hnegcopy]
  rcases hpos : branch g s.propagator.getTrail s v with _ | pos
  · rw [hpos] at hbranch
    exact iff_of_false (fun h => h rfl) fun h => hbranch.mpr h.1 rfl
  · rw [hpos] at hbranch
    have hsecond := branch_ne_none_iff g s.propagator.getTrail
      { pos with propagator := pos.propagator.cancelUntilPos s.propagator.getTrailSize } (-v)
    rw [Option.bind_some, Ne, Option.map_eq_none_iff, negEnd_eq hpos]
    exact hsecond.trans ⟨fun h => ⟨hbranch.mp (Option.some_ne_none _), h⟩, fun h => h.2⟩

/-- **An expansion is defined exactly if its copies are live.** -/
theorem createCubes_ne_none_iff (hq : s.queue = top :: rest) (hlt : s.queue.length < cfg.numCubes) :
    createCubes cfg g s ≠ none ↔ s.CopiesLive cfg g := by
  have htop : ∀ top' rest', s.queue = top' :: rest' → top' = top := fun top' rest' hq' =>
    (List.cons.inj (hq'.symm.trans hq)).1
  rcases createCubes_cases cfg g hq with ⟨hconflict, heq⟩ | ⟨hnext, heq⟩ | ⟨v, hnext, hok, hunsat, heq⟩
  · rw [heq]
    refine iff_of_true (Option.some_ne_none _) fun top' rest' v' _ hq' hok' hunsat' _ => ?_
    obtain rfl := htop top' rest' hq'
    rcases hconflict with hconflict | hconflict
    · exact absurd (hok'.symm.trans hconflict) Bool.noConfusion
    · exact absurd (hunsat'.symm.trans hconflict) Bool.noConfusion
  · rw [heq]
    refine iff_of_true (Option.some_ne_none _) fun top' rest' v' _ hq' _ _ hnext' => ?_
    obtain rfl := htop top' rest' hq'
    exact absurd (hnext'.symm.trans hnext) (Option.some_ne_none _)
  · rw [heq, split_ne_none_iff]
    constructor
    · intro h top' rest' v' _ hq' _ _ hnext'
      obtain rfl := htop top' rest' hq'
      obtain rfl := Option.some.inj (hnext.symm.trans hnext')
      exact h
    · exact fun h => h top rest v hlt hq hok hunsat hnext

/-! ### Runs -/

theorem State.step_cases (hs : s.step cfg g () = some s') :
    (∃ top rest, s.queue = top :: rest) ∧ s.queue.length < cfg.numCubes ∧
      createCubes cfg g s = some s' := by
  obtain ⟨⟨hlt, hne⟩, hs⟩ := (Option.ite_none_right_eq_some).mp hs
  exact ⟨List.exists_cons_of_ne_nil hne, hlt, hs⟩

/-- A step is a step of the loop that reads the live trail. -/
theorem State.step_forget (hs : s.step cfg g () = some s') :
    s.forget.step cfg () = some s'.forget := by
  obtain ⟨⟨top, rest, hq⟩, hlt, hs⟩ := step_cases hs
  have hqueue : s.forget.queue = top :: rest := hq
  have hgo : s.forget.queue.length < cfg.numCubes ∧ s.forget.queue ≠ [] :=
    ⟨hlt, by rw [hqueue]; exact List.cons_ne_nil _ _⟩
  rw [CubeGenCli.State.step, if_pos hgo, createCubes_forget hs]

/-- A run is a run of the loop that reads the live trail. -/
theorem reachable_forget (hr : Reachable (State.step cfg g) s₀ s) :
    Reachable (CubeGenCli.State.step cfg) s₀.forget s.forget := by
  induction hr with
  | start => exact .start
  | next _ _ hs ih => exact .next ih trivial (State.step_forget hs)

theorem fill_pushes (g : Growth) (B : Buffered) (lits : Cube) : Pushes g B (fill g B lits) := by
  unfold fill
  induction lits generalizing B with
  | nil => exact .refl g B
  | cons l lits ih =>
      rw [List.foldl_cons]
      split
      · exact (enqueue_pushes g B l).trans (ih _)
      · exact ih B

theorem refilled_later (g : Growth) (s : State) (c : Cube) :
    Buffer.Later s.propagator.m_trail (refilled g s c).m_trail :=
  (Buffer.later_truncate s.propagator.m_trail 0).trans
    ((fill_pushes g s.propagator.restart c).trans (propagate_pushes g _)).later

theorem split_later (h : split g s v = some s') :
    Buffer.Later s.propagator.m_trail s'.propagator.m_trail := by
  obtain ⟨pos, hpos, hrest⟩ := Option.bind_eq_some_iff.mp h
  obtain ⟨neg, hneg, rfl⟩ := Option.map_eq_some_iff.mp hrest
  have hend : neg.propagator = (negEnd g s.propagator v).2 := by
    rw [propagator_of_branch hneg, negEnd_eq hpos]
  show Buffer.Later s.propagator.m_trail neg.propagator.m_trail
  rw [hend]
  exact negEnd_later g s.propagator v

/-- The capacity never shrinks. -/
theorem State.step_later (hs : s.step cfg g () = some s') :
    Buffer.Later s.propagator.m_trail s'.propagator.m_trail := by
  obtain ⟨⟨top, rest, hq⟩, -, hs⟩ := step_cases hs
  rcases createCubes_cases cfg g hq with ⟨-, heq⟩ | ⟨-, heq⟩ | ⟨v, -, -, -, heq⟩
  · obtain rfl := Option.some.inj (heq.symm.trans hs)
    exact refilled_later g s top
  · obtain rfl := Option.some.inj (heq.symm.trans hs)
    exact refilled_later g s top
  · have hsplit := split_later (heq.symm.trans hs)
    exact (refilled_later g s top).trans hsplit

/-! ### Room for every variable -/

theorem refilled_forget (g : Growth) (s : State) (c : Cube) :
    CubeGenCli.refilled s.forget c = (refilled g s c).propagator := by
  have hfill : CubeGenCli.fill s.forget.propagator.restart c =
      (fill g s.propagator.restart c).propagator := (fill_forget g s.propagator.restart c).symm
  rw [CubeGenCli.refilled, hfill, propagate_forget g]
  rfl

theorem posEnd_forget (g : Growth) (B : Buffered) (v : ℕ) :
    (posStart B.propagator v).propagate = ((posEnd g B v).1, (posEnd g B v).2.propagator) :=
  propagate_forget g (B.uncheckedEnqueue g v)

theorem negEnd_forget (g : Growth) (B : Buffered) (v : ℕ) :
    (negStart B.propagator v).propagate = ((negEnd g B v).1, (negEnd g B v).2.propagator) := by
  have hsize : B.propagator.trail.length = B.getTrailSize := congrArg List.length B.holds.symm
  rw [negStart, posEnd_forget g, hsize]
  exact propagate_forget g
    (((posEnd g B v).2.cancelUntilPos B.getTrailSize).uncheckedEnqueue g (-v))

/-- The trail of a branch names every variable once, and one of them at most once more. -/
theorem copiesLive_of_room (hF : InRange cfg.nbVar cfg.clauses)
    (hinv : s.forget.Inv cfg.clauses cfg.nbVar)
    (hroom : cfg.nbVar + 2 ≤ s.propagator.m_trail.capacity) : s.CopiesLive cfg g := by
  intro top rest v _ hq _ _ hnext
  obtain ⟨-, hvn, -⟩ := next_spec hnext
  have htop := hinv.queued top (by rw [State.forget, hq]; exact List.mem_cons_self)
  obtain ⟨hfilled, -, hkept⟩ := refill_spec hF hinv.ok htop.inRange
  obtain ⟨hpos, hneg⟩ :=
    split_trails (s := { s.forget with propagator := CubeGenCli.refilled s.forget top }) hF hfilled
      hq (htop.distinct.trans (Nat.add_le_add_right hkept.length_le 1)) hvn
  have hcapacity : cfg.nbVar + 2 ≤ (refilled g s top).m_trail.capacity :=
    hroom.trans (refilled_later g s top).capacity_le
  have hposSize : (posEnd g (refilled g s top) v).2.getTrailSize ≤ cfg.nbVar + 2 := by
    rw [refilled_forget g, posEnd_forget g] at hpos
    rw [getTrailSize, holds]
    exact hpos.length_le
  have hnegSize : (negEnd g (refilled g s top) v).2.getTrailSize ≤ cfg.nbVar + 2 := by
    rw [refilled_forget g, negEnd_forget g] at hneg
    rw [getTrailSize, holds]
    exact hneg.length_le
  exact ⟨fun _ => (posEnd_live_iff g _ v).mpr (hposSize.trans hcapacity), fun _ =>
    (negEnd_live_iff g _ v).mpr ⟨hposSize.trans hcapacity, hnegSize.trans hcapacity⟩⟩

/-- **With room for every variable from the start, every copy of every run is live**, and the loop
runs as the one that reads the live trail. -/
theorem live_of_room (hF : InRange cfg.nbVar cfg.clauses) (hstart : s₀.forget = CubeGenCli.init cfg)
    (hroom : cfg.nbVar + 2 ≤ s₀.propagator.m_trail.capacity)
    (hr : Reachable (State.step cfg g) s₀ s) :
    s.CopiesLive cfg g ∧ (s.step cfg g ()).map State.forget = s.forget.step cfg () := by
  have hinv : s.forget.Inv cfg.clauses cfg.nbVar := by
    have hreach := reachable_forget hr
    rw [hstart] at hreach
    exact inv_of_reachable hF hreach
  have hcapacity : cfg.nbVar + 2 ≤ s.propagator.m_trail.capacity :=
    hr.invariant (fun s => cfg.nbVar + 2 ≤ s.propagator.m_trail.capacity) hroom
      fun s _ s' h _ hs => h.trans (State.step_later hs).capacity_le
  have hlive : s.CopiesLive cfg g := copiesLive_of_room hF hinv hcapacity
  refine ⟨hlive, ?_⟩
  by_cases hgo : s.queue.length < cfg.numCubes ∧ s.queue ≠ []
  · obtain ⟨top, rest, hq⟩ := List.exists_cons_of_ne_nil hgo.2
    obtain ⟨s', hs'⟩ := Option.ne_none_iff_exists'.mp ((createCubes_ne_none_iff hq hgo.1).mpr hlive)
    have hs : s.step cfg g () = some s' := (if_pos hgo).trans hs'
    rw [hs, State.step_forget hs, Option.map_some]
  · have hs : s.step cfg g () = none := if_neg hgo
    have hs' : s.forget.step cfg () = none := if_neg hgo
    rw [hs, hs', Option.map_none]

/-! ### The first expansion -/

theorem new_propagate (g : Growth) (nbVar : ℕ) (clauses : List Clause) :
    (new nbVar clauses).propagate g = (true, new nbVar clauses) := by
  show propagateLoop g (0 + (List.replicate (nbVar + 1) (0 : ℤ)).length) _ = _
  rw [List.length_replicate]
  rfl

theorem init_eq (cfg : Config) (g : Growth) : init cfg g =
    { propagator := new cfg.nbVar cfg.clauses, queue := [[]], cubes := [], pruned := 0 } := by
  rw [init, new_propagate]
  rfl

theorem fill_init (cfg : Config) (g : Growth) :
    (fill g (init cfg g).propagator.restart []).propagate g = (true, new cfg.nbVar cfg.clauses) := by
  rw [init_eq]
  exact new_propagate g cfg.nbVar cfg.clauses

theorem refilled_init (cfg : Config) (g : Growth) :
    refilled g (init cfg g) [] = new cfg.nbVar cfg.clauses := by
  rw [refilled, fill_init]

/-- **In a full vector no copy is live**: the decision already moves it, and the pointer of the
negative branch is the one that was taken before. -/
theorem bothLive_of_full (hfull : B.m_trail.capacity ≤ B.getTrailSize) (g : Growth) (v : ℕ) :
    BothLive g B v ↔ (posEnd g B v).1 = false ∧ (negEnd g B v).1 = false := by
  have hlong : B.m_trail.capacity < (posEnd g B v).2.getTrailSize := by
    obtain ⟨more, hmore⟩ := propagate_pushes g (B.uncheckedEnqueue g v)
    have hdecision : (B.uncheckedEnqueue g v).m_trail.elems.length = B.getTrailSize + 1 := by
      show (B.m_trail.pushBack g v).elems.length = B.m_trail.elems.length + 1
      rw [Buffer.elems_pushBack, List.length_append, List.length_singleton]
    rw [getTrailSize, posEnd, hmore, Buffer.elems_pushAll, List.length_append, hdecision]
    omega
  have hpos : ¬ Live B (posEnd g B v).2 := fun h =>
    Nat.not_le.mpr hlong ((posEnd_live_iff g B v).mp h)
  have hneg : ¬ Live B (negEnd g B v).2 := fun h =>
    Nat.not_le.mpr hlong ((negEnd_live_iff g B v).mp h).1
  constructor
  · exact fun h => ⟨Bool.eq_false_iff.mpr fun hok => hpos (h.1 hok),
      Bool.eq_false_iff.mpr fun hok => hneg (h.2 hok)⟩
  · exact fun h => ⟨fun hok => absurd (hok.symm.trans h.1) Bool.noConfusion,
      fun hok => absurd (hok.symm.trans h.2) Bool.noConfusion⟩

theorem queue_of_branch {trail : ℕ} {l : ℤ} (h : branch g trail s l = some s')
    (hconflict : ((s.propagator.uncheckedEnqueue g l).propagate g).1 = false) :
    s'.queue = s.queue := by
  unfold branch at h
  rcases hout : (s.propagator.uncheckedEnqueue g l).propagate g with ⟨_ | _, B⟩
  · rw [hout] at h
    rw [← Option.some.inj h]
  · rw [hout] at hconflict
    exact Bool.noConfusion hconflict

/-- Two conflicts queue nothing. -/
theorem queue_of_split (h : split g s v = some s') (hpos : (posEnd g s.propagator v).1 = false)
    (hneg : (negEnd g s.propagator v).1 = false) :
    s'.queue = BinaryHeap.pop heavier s.queue := by
  obtain ⟨pos, hfirst, hrest⟩ := Option.bind_eq_some_iff.mp h
  obtain ⟨neg, hsecond, rfl⟩ := Option.map_eq_some_iff.mp hrest
  rw [negEnd_eq hfirst] at hneg
  have hposQueue : pos.queue = s.queue := queue_of_branch hfirst hpos
  have hnegQueue := queue_of_branch hsecond hneg
  show BinaryHeap.pop heavier neg.queue = _
  rw [hnegQueue, hposQueue]

/-- The branches of the first expansion on `v` both end in a conflict. -/
def Refuted (cfg : Config) (v : ℕ) : Prop :=
  (posStart (.new cfg.nbVar cfg.clauses) v).propagate.1 = false ∧
    (negStart (.new cfg.nbVar cfg.clauses) v).propagate.1 = false

/-- At the first call of `getTrail()` the vector has no room at all. -/
theorem full_init (cfg : Config) (g : Growth) :
    (refilled g (init cfg g) []).m_trail.capacity ≤ (refilled g (init cfg g) []).getTrailSize := by
  rw [refilled_init]
  exact Nat.le_refl 0

theorem bothLive_init_iff (cfg : Config) (g : Growth) (v : ℕ) :
    BothLive g (refilled g (init cfg g) []) v ↔ Refuted cfg v := by
  have hpos := posEnd_forget g (new cfg.nbVar cfg.clauses) v
  have hneg := negEnd_forget g (new cfg.nbVar cfg.clauses) v
  have hnew : (new cfg.nbVar cfg.clauses).propagator = .new cfg.nbVar cfg.clauses := rfl
  rw [hnew] at hpos hneg
  rw [bothLive_of_full (full_init cfg g), refilled_init, Refuted, hpos, hneg]

/-- If the first expansion makes no copy, it is the last one. -/
theorem queue_of_first_step (hs : (init cfg g).step cfg g () = some s')
    (hrefuted : ∀ v, next cfg [] = some v → Refuted cfg v) : s'.queue = [] := by
  obtain ⟨-, -, hs⟩ := State.step_cases hs
  have hq : (init cfg g).queue = [] :: [] := by rw [init_eq]
  have hpop : BinaryHeap.pop heavier (init cfg g).queue = [] := by rw [hq]; rfl
  rcases createCubes_cases cfg g hq with ⟨-, heq⟩ | ⟨-, heq⟩ | ⟨v, hnext, -, -, heq⟩
  · obtain rfl := Option.some.inj (heq.symm.trans hs)
    exact hpop
  · obtain rfl := Option.some.inj (heq.symm.trans hs)
    exact hpop
  · have hboth := (bothLive_init_iff cfg g v).mpr (hrefuted v hnext)
    obtain ⟨hpos, hneg⟩ := (bothLive_of_full (full_init cfg g) g v).mp hboth
    exact (queue_of_split (heq.symm.trans hs) hpos hneg).trans hpop

/-- **The copies of a run are live exactly if it makes none**: at most one cube is asked for, or the
heuristic finds no variable for the empty cube, or propagation refutes both of its branches.  In every
other run the first copy already reads a block that the vector has left. -/
theorem copies_live_iff (cfg : Config) (g : Growth) :
    (∀ s, Reachable (State.step cfg g) (init cfg g) s → s.CopiesLive cfg g) ↔
      cfg.numCubes ≤ 1 ∨ ∀ v, next cfg [] = some v → Refuted cfg v := by
  have hqueue : (init cfg g).queue = [] :: [] := by rw [init_eq]
  constructor
  · intro h
    rcases Nat.lt_or_ge 1 cfg.numCubes with hmore | hone
    · refine .inr fun v hnext => (bothLive_init_iff cfg g v).mp ?_
      have hunsat : (refilled g (init cfg g) []).propagator.unsat = false := by
        rw [refilled_init]
        rfl
      exact h _ .start [] [] v (by rwa [hqueue]) hqueue (by rw [fill_init]) hunsat hnext
    · exact .inl hone
  · intro hcond s hr
    have hrun : s = init cfg g ∨ s.queue = [] := by
      refine hr.invariant (fun s => s = init cfg g ∨ s.queue = []) (.inl rfl) ?_
      intro s _ s' hs _ hstep
      obtain ⟨⟨top, rest, hq⟩, hlt, -⟩ := State.step_cases hstep
      rcases hs with rfl | hempty
      · rw [hqueue] at hlt
        exact .inr (queue_of_first_step hstep (hcond.resolve_left (Nat.not_le.mpr hlt)))
      · exact absurd (hq.symm.trans hempty) (List.cons_ne_nil _ _)
    intro top rest v hlt hq _ _ hnext
    rcases hrun with rfl | hempty
    · obtain ⟨rfl, -⟩ := List.cons.inj (hq.symm.trans hqueue)
      rw [hqueue] at hlt
      exact (bothLive_init_iff cfg g v).mpr (hcond.resolve_left (Nat.not_le.mpr hlt) v hnext)
    · exact absurd (hq.symm.trans hempty) (List.cons_ne_nil _ _)

-- a first expansion without copies: either decision ends in a conflict
example : Refuted ⟨2, [[1, 2], [1, -2], [-1, 2], [-1, -2]], levelNone, 2⟩ 1 := by
  unfold Refuted
  decide +kernel

/-- One clause, and two cubes asked for. -/
def oneClause : Config where
  nbVar := 2
  clauses := [[1, 2]]
  getLevel := levelNone
  numCubes := 2

/-- **The first copy of a run yields nothing.**  The decision `1` is appended to a vector without
room, and `litPos` is read through the pointer from before. -/
theorem firstCopy_stale :
    (posEnd .doubling (refilled .doubling (init oneClause .doubling) []) 1).1 = true ∧
    (posEnd .doubling (refilled .doubling (init oneClause .doubling) []) 1).2.copy
      (refilled .doubling (init oneClause .doubling) []).getTrail = none ∧
    ¬ ∀ s, Reachable (State.step oneClause .doubling) (init oneClause .doubling) s →
      s.CopiesLive oneClause .doubling := by
  have hok : (posEnd .doubling (refilled .doubling (init oneClause .doubling) []) 1).1 = true := by
    decide +kernel
  have hstale : (posEnd .doubling (refilled .doubling (init oneClause .doubling) []) 1).2.copy
      (refilled .doubling (init oneClause .doubling) []).getTrail = none := by decide +kernel
  refine ⟨hok, hstale, fun h => ?_⟩
  have hboth := h _ .start [] [] 1 (by decide +kernel) (by decide +kernel) (by decide +kernel)
    (by decide +kernel) (by decide +kernel)
  exact Option.some_ne_none _ ((hboth.1 hok).copied.symm.trans hstale)

end HydraSAT.CubeGenCli.Buffered
