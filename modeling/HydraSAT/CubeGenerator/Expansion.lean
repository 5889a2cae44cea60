import HydraSAT.Lib.Dimacs

/-!
# Expanding a cube

`createCubes` fills the propagator with the literals of a cube, asks the branching heuristic for a
variable and propagates both values of it; the two trails are the children.

* `Propagator`, `createCubes`: the code, over a unit propagator and a branching heuristic that are
  parameters;
* `Propagator.Sound`: what unit propagation promises;
* `createCubes_hits`: a model of the formula that satisfies the cube satisfies exactly one of the
  cubes it is replaced by.
-/

namespace HydraSAT.CubeGenerator

open HydraSAT.Lib

/-! ### The code -/

/-- What `createCubes` calls of the vendored propagator; `π` is the type of its states. -/
structure Propagator (π : Type) where
  restart : π → π
  /-- 0 if the literal is true, 1 if it is false, above 1 if it is unassigned. -/
  value : π → ℤ → ℕ
  uncheckedEnqueue : π → ℤ → π
  /-- `false` on a conflict. -/
  propagate : π → Bool × π
  getIsUnsat : π → Bool
  getTrail : π → Cube
  cancelUntilPos : π → ℕ → π

variable {π : Type}

/-- Fill the propagator with the literals of a cube. -/
def Propagator.fill (E : Propagator π) (p : π) (lits : Cube) : π :=
  lits.foldl (fun p l => if 1 < E.value p l then E.uncheckedEnqueue p l else p) (E.restart p)

/-- One child: enqueue the decision and propagate; a conflict prunes the child. -/
def Propagator.branch (E : Propagator π) (p : π) (l : ℤ) : π × List Cube :=
  match E.propagate (E.uncheckedEnqueue p l) with
  | (true, p) => (p, [E.getTrail p])
  | (false, p) => (p, [])

/-- The outcome of an expansion: what is appended to `done` and to `pending`. -/
structure Expansion (π : Type) where
  propagator : π
  done : List Cube
  pending : List Cube

/-- `createCubes` on the top of the queue, which it pops.  `none` where one of the two assertions
fails. -/
def createCubes (E : Propagator π) (next : Cube → Option ℕ) (p : π) (lits : Cube) :
    Option (Expansion π) :=
  match E.propagate (E.fill p lits) with
  | (false, _) => none
  | (true, p) =>
      if E.getIsUnsat p = false ∧ lits.length = (E.getTrail p).length then
        match next lits with
        | none => some { propagator := p, done := [lits], pending := [] }
        | some v =>
            let pos := E.branch p v
            let neg := E.branch (E.cancelUntilPos pos.1 (E.getTrail p).length) (-v)
            some { propagator := neg.1, done := [], pending := pos.2 ++ neg.2 }
      else none

/-! ### Sound propagation -/

/-- **Sound unit propagation** for the formula `F`.  The trail only ever grows by the enqueued
literals and by literals they entail, and a conflict means that no model extends the trail. -/
structure Propagator.Sound (E : Propagator π) (F : List Clause) : Prop where
  /-- `restart` keeps the literals implied by the formula alone. -/
  restart : ∀ p a, formulaTrue a F = true → cubeTrue a (E.getTrail (E.restart p)) = true
  value_true : ∀ p l, E.value p l = 0 → l ∈ E.getTrail p
  value_false : ∀ p l, E.value p l = 1 → -l ∈ E.getTrail p
  enqueue : ∀ p l, E.getTrail (E.uncheckedEnqueue p l) = E.getTrail p ++ [l]
  propagate : ∀ p, ∃ implied, E.getTrail (E.propagate p).2 = E.getTrail p ++ implied ∧
    ∀ a, formulaTrue a F = true → cubeTrue a (E.getTrail p) = true → cubeTrue a implied = true
  conflict : ∀ p a, (E.propagate p).1 = false → formulaTrue a F = true →
    cubeTrue a (E.getTrail p) = false
  cancel : ∀ p n, E.getTrail (E.cancelUntilPos p n) = (E.getTrail p).take n

section Sound

variable {E : Propagator π} {F : List Clause} {a : Assignment} {p : π}

/-- Propagating keeps the models of the trail. -/
theorem Propagator.Sound.propagate_trail (hE : E.Sound F) (ha : formulaTrue a F = true) :
    cubeTrue a (E.getTrail (E.propagate p).2) = cubeTrue a (E.getTrail p) := by
  obtain ⟨implied, htrail, himplied⟩ := hE.propagate p
  rw [htrail, cubeTrue_append]
  cases hp : cubeTrue a (E.getTrail p) with
  | false => rfl
  | true => exact himplied a ha hp

/-- Filling enqueues some of the literals, and the others are assigned already. -/
theorem Propagator.Sound.fill_trail (hE : E.Sound F) (lits : Cube) : ∃ added,
    E.getTrail (E.fill p lits) = E.getTrail (E.restart p) ++ added ∧ (∀ l ∈ added, l ∈ lits) ∧
      ∀ l ∈ lits, l ∈ E.getTrail (E.fill p lits) ∨ -l ∈ E.getTrail (E.fill p lits) := by
  unfold Propagator.fill
  generalize E.restart p = q
  induction lits generalizing q with
  | nil => exact ⟨[], (List.append_nil _).symm, fun l hl => hl, fun l hl => nomatch hl⟩
  | cons l lits ih =>
      rw [List.foldl_cons]
      by_cases hv : 1 < E.value q l
      · rw [if_pos hv]
        obtain ⟨added, htrail, hsub, hcover⟩ := ih (E.uncheckedEnqueue q l)
        have htrail' := htrail
        rw [hE.enqueue, List.append_assoc] at htrail'
        refine ⟨l :: added, htrail', ?_, ?_⟩
        · intro k hk
          exact List.mem_cons.mpr ((List.mem_cons.mp hk).imp_right (hsub k))
        · intro k hk
          rcases List.mem_cons.mp hk with rfl | hk
          · exact .inl (by rw [htrail']; simp)
          · exact hcover k hk
      · rw [if_neg hv]
        obtain ⟨added, htrail, hsub, hcover⟩ := ih q
        refine ⟨added, htrail, fun k hk => List.mem_cons_of_mem l (hsub k hk), ?_⟩
        intro k hk
        rcases List.mem_cons.mp hk with rfl | hk
        · rw [htrail]
          have hval : E.value q k = 0 ∨ E.value q k = 1 := by omega
          exact hval.imp (fun h => List.mem_append_left _ (hE.value_true q k h))
            (fun h => List.mem_append_left _ (hE.value_false q k h))
        · exact hcover k hk

/-- **The filled trail stands for the cube**, if the cube has a model: a literal that was skipped
because it is false would contradict that model. -/
theorem Propagator.Sound.filled (hE : E.Sound F) {lits : Cube} (ha : formulaTrue a F = true)
    (hmodel : ∃ b, formulaTrue b F = true ∧ cubeTrue b lits = true) :
    cubeTrue a (E.getTrail (E.propagate (E.fill p lits)).2) = cubeTrue a lits := by
  obtain ⟨added, htrail, hsub, hcover⟩ := hE.fill_trail (p := p) lits
  have hfill : ∀ b, formulaTrue b F = true → cubeTrue b lits = true →
      cubeTrue b (E.getTrail (E.fill p lits)) = true := by
    intro b hb hlits
    rw [htrail, cubeTrue_append, hE.restart p b hb, Bool.true_and]
    exact cubeTrue_iff.mpr fun l hl => cubeTrue_iff.mp hlits l (hsub l hl)
  rw [hE.propagate_trail ha]
  refine Bool.eq_iff_iff.mpr ⟨fun ht => ?_, hfill a ha⟩
  obtain ⟨b, hb, hblits⟩ := hmodel
  refine cubeTrue_iff.mpr fun l hl => ?_
  rcases hcover l hl with hmem | hmem
  · exact cubeTrue_iff.mp ht l hmem
  · by_cases hl0 : l = 0
    · rw [hl0, neg_zero] at hmem
      rw [hl0]
      exact cubeTrue_iff.mp ht 0 hmem
    · have hneg := cubeTrue_iff.mp (hfill b hb hblits) (-l) hmem
      rw [litTrue_neg hl0, cubeTrue_iff.mp hblits l hl] at hneg
      exact absurd hneg Bool.false_ne_true

/-- **A child stands for its decision**; where it is pruned, no model makes the decision. -/
theorem Propagator.Sound.branch (hE : E.Sound F) (ha : formulaTrue a F = true) (l : ℤ) :
    hits a (E.branch p l).2 = hits a [E.getTrail p ++ [l]] := by
  have htrail := hE.propagate_trail (p := E.uncheckedEnqueue p l) ha
  rw [hE.enqueue] at htrail
  unfold Propagator.branch
  split
  · rename_i q hq
    rw [hq] at htrail
    rw [hits_singleton, hits_singleton, htrail]
  · rename_i q hq
    have hnone := hE.conflict (E.uncheckedEnqueue p l) a (by rw [hq]) ha
    rw [hE.enqueue] at hnone
    rw [hits_singleton, hnone]
    rfl

/-- Cancelling a child restores the trail of its parent. -/
theorem Propagator.Sound.cancel_branch (hE : E.Sound F) (l : ℤ) :
    E.getTrail (E.cancelUntilPos (E.branch p l).1 (E.getTrail p).length) = E.getTrail p := by
  obtain ⟨implied, htrail, -⟩ := hE.propagate (E.uncheckedEnqueue p l)
  have hpos : (E.branch p l).1 = (E.propagate (E.uncheckedEnqueue p l)).2 := by
    unfold Propagator.branch
    split <;> (rename_i q hq; rw [hq])
  rw [hE.cancel, hpos, htrail, hE.enqueue, List.append_assoc, List.take_left]

/-- **Expanding keeps the models apart.**  Of the models of `F`, those of the cube satisfy exactly
one of the cubes that take its place, and the others satisfy none. -/
theorem createCubes_hits (hE : E.Sound F) {next : Cube → Option ℕ}
    (hnext : ∀ c v, next c = some v → v ≠ 0) {lits : Cube} {e : Expansion π}
    (ha : formulaTrue a F = true) (hmodel : ∃ b, formulaTrue b F = true ∧ cubeTrue b lits = true)
    (h : createCubes E next p lits = some e) :
    hits a e.done + hits a e.pending = hits a [lits] := by
  unfold createCubes at h
  have hfilled := hE.filled (p := p) ha hmodel
  split at h
  · simp at h
  · rename_i q hq
    rw [hq] at hfilled
    split at h
    · split at h
      · obtain rfl := Option.some.inj h
        rfl
      · rename_i v hv
        obtain rfl := Option.some.inj h
        have hv0 : (v : ℤ) ≠ 0 := Int.natCast_ne_zero.mpr (hnext lits v hv)
        show hits a [] + hits a (_ ++ _) = hits a [lits]
        rw [hits_nil, Nat.zero_add, hits_append, hE.branch ha, hE.branch ha, hE.cancel_branch]
        calc hits a [E.getTrail q ++ [(v : ℤ)]] + hits a [E.getTrail q ++ [-(v : ℤ)]]
            = hits a [E.getTrail q ++ [(v : ℤ)], E.getTrail q ++ [-(v : ℤ)]] :=
              (hits_append [_] [_]).symm
          _ = hits a [E.getTrail q] := hits_split hv0
          _ = hits a [lits] := by rw [hits_singleton, hits_singleton, hfilled]
    · simp at h

end Sound

/-! ### Formulas that imply nothing -/

/-- A propagator that implies nothing: the trail is the list of decisions.  It is sound for every
formula, and complete as long as every clause has two literals left. -/
def Propagator.decisions : Propagator Cube where
  restart _ := []
  value trail l := if l ∈ trail then 0 else if -l ∈ trail then 1 else 2
  uncheckedEnqueue trail l := trail ++ [l]
  propagate trail := (true, trail)
  getIsUnsat _ := false
  getTrail trail := trail
  cancelUntilPos trail n := trail.take n

theorem Propagator.decisions_sound (F : List Clause) : Propagator.decisions.Sound F where
  restart _ _ _ := rfl
  value_true trail l h := by
    by_contra hmem
    have hval : Propagator.decisions.value trail l = if -l ∈ trail then 1 else 2 := if_neg hmem
    rw [hval] at h
    split at h <;> omega
  value_false trail l h := by
    by_contra hmem
    have hval : Propagator.decisions.value trail l = if l ∈ trail then 0 else 2 :=
      congrArg (fun n => if l ∈ trail then 0 else n) (if_neg hmem)
    rw [hval] at h
    split at h <;> omega
  enqueue _ _ := rfl
  propagate trail := ⟨[], (List.append_nil trail).symm, fun _ _ _ => rfl⟩
  conflict _ _ h := Bool.noConfusion h
  cancel _ _ := rfl

/-- The first of the variables 1 to `nbVar` that a cube leaves open. -/
def firstOpen (nbVar : ℕ) (lits : Cube) : Option ℕ :=
  (List.range' 1 nbVar).find? fun v => (v : ℤ) ∉ lits ∧ -(v : ℤ) ∉ lits

theorem firstOpen_ne_zero (nbVar : ℕ) : ∀ c v, firstOpen nbVar c = some v → v ≠ 0 := by
  intro c v h hzero
  have hmem := List.mem_of_find?_eq_some h
  rw [hzero] at hmem
  exact absurd (List.mem_range'_1.mp hmem).1 (by decide)

end HydraSAT.CubeGenerator
