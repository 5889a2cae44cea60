import Mathlib.Data.List.GetD
import Mathlib.Data.List.Nodup
import HydraSAT.Lib.Dimacs

/-!
# The unit propagator of cube_gen

Class `Propagator` of the cube generator's command line tool, with its watch lists.  A literal is
its DIMACS integer; clauses are referred to by their index.

* `Propagator`, `Propagator.propagate`: the code;
* `Propagator.Ok`: what every operation keeps;
* `Propagator.propagate_extends`: propagation appends literals that the formula and the trail imply,
  each on a variable unassigned before, and reports a conflict only if no model extends the trail;
* `Propagator.propagate_complete`: the bound on the number of iterations is never met.
-/

namespace HydraSAT.CubeGenCli

open HydraSAT.Lib

/-! ### The code -/

/-- The fields of the class. -/
structure Propagator where
  clauses : List Clause
  /-- By variable: 0 unassigned, 1 true, -1 false. -/
  assign : List ℤ
  trail : List ℤ
  qhead : ℕ
  unsat : Bool
  /-- By `litIdx`: the indices of the clauses that watch the literal. -/
  watches : List (List ℕ)

def litIdx (l : ℤ) : ℕ := if l < 0 then 2 * l.natAbs + 1 else 2 * l.natAbs

/-- `m_watches[litIdx(l)].push_back(ci)`. -/
def watch (watches : List (List ℕ)) (l : ℤ) (ci : ℕ) : List (List ℕ) :=
  watches.set (litIdx l) (watches.getD (litIdx l) [] ++ [ci])

/-- `buildWatches`: every clause watches its first two literals; the head of the list is clause
`ci`. -/
def buildWatches (watches : List (List ℕ)) : List Clause → ℕ → List (List ℕ)
  | [], _ => watches
  | [] :: cs, ci => buildWatches watches cs (ci + 1)
  | [l] :: cs, ci => buildWatches (watch watches l ci) cs (ci + 1)
  | (l₁ :: l₂ :: _) :: cs, ci => buildWatches (watch (watch watches l₁ ci) l₂ ci) cs (ci + 1)

namespace Propagator

/-- The constructor. -/
def new (nbVar : ℕ) (clauses : List Clause) : Propagator :=
  { clauses := clauses
    assign := List.replicate (nbVar + 1) 0
    trail := []
    qhead := 0
    unsat := false
    watches := buildWatches (List.replicate (2 * (nbVar + 1)) []) clauses 0 }

/-- `m_assign[v]`. -/
def assigned (P : Propagator) (v : ℕ) : ℤ := P.assign.getD v 0

/-- Set the variables of the literals to unassigned. -/
def unassign (assign : List ℤ) (lits : List ℤ) : List ℤ :=
  lits.foldl (fun assign l => assign.set l.natAbs 0) assign

def restart (P : Propagator) : Propagator :=
  { P with assign := unassign P.assign P.trail, trail := [], qhead := 0, unsat := false }

/-- 2 = unassigned, 1 = true, 0 = false. -/
def value (P : Propagator) (l : ℤ) : ℕ :=
  if P.assigned l.natAbs = 0 then 2
  else if (if l < 0 then P.assigned l.natAbs = -1 else P.assigned l.natAbs = 1) then 1 else 0

def uncheckedEnqueue (P : Propagator) (l : ℤ) : Propagator :=
  { P with assign := P.assign.set l.natAbs (if l < 0 then -1 else 1), trail := P.trail ++ [l] }

/-- The scan of a clause in `propagateLit`: `none` at a true literal, else the number of unassigned
literals, the last and the first of them. -/
def scanClause (P : Propagator) : Clause → ℕ → ℤ → ℤ → Option (ℕ × ℤ × ℤ)
  | [], free, unit, newW => some (free, unit, newW)
  | cl :: rest, free, unit, newW =>
      if P.value cl = 1 then none
      else if P.value cl = 2 then
        scanClause P rest (free + 1) cl (if free = 0 then cl else newW)
      else scanClause P rest free unit newW

/-- The loop of `propagateLit` over a watch list, with the entries kept so far.  A moved clause goes
to the list of an unassigned literal, never to the list that is scanned, whose literal is false. -/
def scanWatches : Propagator → List ℕ → List ℕ → Bool × List ℕ × Propagator
  | P, kept, [] => (true, kept, P)
  | P, kept, ci :: rest =>
      match P.scanClause (P.clauses.getD ci []) 0 0 0 with
      | none => scanWatches P (kept ++ [ci]) rest
      | some (0, _, _) => (false, kept ++ ci :: rest, P)
      | some (1, unit, _) =>
          scanWatches (if P.value unit = 2 then P.uncheckedEnqueue unit else P) (kept ++ [ci]) rest
      | some (_ + 2, _, newW) =>
          scanWatches { P with watches := watch P.watches newW ci } kept rest

def propagateLit (P : Propagator) (p : ℤ) : Bool × Propagator :=
  match scanWatches P [] (P.watches.getD (litIdx (-p)) []) with
  | (ok, ws, P) => (ok, { P with watches := P.watches.set (litIdx (-p)) ws })

/-- The loop of `propagate`; the first argument bounds the number of iterations. -/
def propagateLoop : ℕ → Propagator → Bool × Propagator
  | 0, P => (true, P)
  | fuel + 1, P =>
      match P.trail[P.qhead]? with
      | none => (true, P)
      | some p =>
          match propagateLit { P with qhead := P.qhead + 1 } p with
          | (true, P) => propagateLoop fuel P
          | (false, P) => (false, { P with unsat := true })

/-- Every variable enters the trail at most once more, so that as many iterations are enough. -/
def propagate (P : Propagator) : Bool × Propagator :=
  propagateLoop (P.trail.length + P.assign.length) P

def cancelUntilPos (P : Propagator) (pos : ℕ) : Propagator :=
  { P with
    assign := unassign P.assign (P.trail.drop pos).reverse
    trail := P.trail.take pos
    qhead := min P.qhead pos
    unsat := false }

end Propagator

/-! ### Invariants -/

/-- The literals of the formula are `±1` to `±nbVar`. -/
def InRange (nbVar : ℕ) (F : List Clause) : Prop :=
  ∀ c ∈ F, ∀ l ∈ c, l ≠ 0 ∧ l.natAbs ≤ nbVar

namespace Propagator

variable {F : List Clause} {n : ℕ} {P Q R : Propagator} {l : ℤ} {a : Assignment}

/-- **What every operation keeps.**  The watch lists name clauses, and whatever is assigned stands on
the trail with its sign. -/
structure Ok (F : List Clause) (n : ℕ) (P : Propagator) : Prop where
  clauses : P.clauses = F
  size : P.assign.length = n + 1
  watched : ∀ ws ∈ P.watches, ∀ ci ∈ ws, ci < F.length
  grounded : ∀ v, P.assigned v ≠ 0 →
    (P.assigned v = 1 ∧ (v : ℤ) ∈ P.trail) ∨ (P.assigned v = -1 ∧ -(v : ℤ) ∈ P.trail)

theorem value_eq_two : P.value l = 2 ↔ P.assigned l.natAbs = 0 := by
  unfold value
  by_cases h : P.assigned l.natAbs = 0
  · rw [if_pos h]
    exact iff_of_true rfl h
  · rw [if_neg h]
    refine iff_of_false ?_ h
    split <;> split <;> decide

theorem value_le_two : P.value l ≤ 2 := by
  unfold value
  split
  · exact le_refl 2
  · split <;> split <;> decide

/-- A true literal stands on the trail. -/
theorem Ok.mem_of_true (h : P.Ok F n) (hv : P.value l = 1) : l ∈ P.trail := by
  have hne : P.assigned l.natAbs ≠ 0 := fun h0 => by
    rw [value_eq_two.mpr h0] at hv
    exact absurd hv (by decide)
  unfold value at hv
  rw [if_neg hne] at hv
  by_cases hl : l < 0
  · have habs : -(l.natAbs : ℤ) = l := by omega
    rcases h.grounded l.natAbs hne with ⟨h1, -⟩ | ⟨-, hmem⟩
    · simp [hl, h1] at hv
    · rwa [habs] at hmem
  · have habs : (l.natAbs : ℤ) = l := by omega
    rcases h.grounded l.natAbs hne with ⟨-, hmem⟩ | ⟨h1, -⟩
    · rwa [habs] at hmem
    · simp [hl, h1] at hv

/-- The negation of a false literal stands on the trail. -/
theorem Ok.mem_of_false (h : P.Ok F n) (hv : P.value l = 0) : -l ∈ P.trail := by
  have hne : P.assigned l.natAbs ≠ 0 := fun h0 => by
    rw [value_eq_two.mpr h0] at hv
    exact absurd hv (by decide)
  unfold value at hv
  rw [if_neg hne] at hv
  by_cases hl : l < 0
  · have habs : (l.natAbs : ℤ) = -l := by omega
    rcases h.grounded l.natAbs hne with ⟨-, hmem⟩ | ⟨h1, -⟩
    · rwa [habs] at hmem
    · simp [hl, h1] at hv
  · have habs : -(l.natAbs : ℤ) = -l := by omega
    rcases h.grounded l.natAbs hne with ⟨h1, -⟩ | ⟨-, hmem⟩
    · simp [hl, h1] at hv
    · rwa [habs] at hmem

theorem assigned_enqueue_self (hl : l.natAbs < P.assign.length) :
    (P.uncheckedEnqueue l).assigned l.natAbs = if l < 0 then -1 else 1 := by
  simp [assigned, uncheckedEnqueue, hl]

theorem assigned_enqueue_of_ne {v : ℕ} (hv : v ≠ l.natAbs) :
    (P.uncheckedEnqueue l).assigned v = P.assigned v := by
  simp [assigned, uncheckedEnqueue, List.getD_eq_getElem?_getD, List.getElem?_set_ne hv.symm]

/-- Enqueuing assigns its variable and unassigns none. -/
theorem assigned_enqueue_ne_zero {v : ℕ} (hl : l.natAbs < P.assign.length)
    (hv : v ≠ l.natAbs → P.assigned v ≠ 0) : (P.uncheckedEnqueue l).assigned v ≠ 0 := by
  by_cases hvl : v = l.natAbs
  · rw [hvl, assigned_enqueue_self hl]
    split <;> decide
  · rw [assigned_enqueue_of_ne hvl]
    exact hv hvl

theorem value_enqueue_self (hl : l.natAbs < P.assign.length) : (P.uncheckedEnqueue l).value l = 1 := by
  unfold value
  rw [assigned_enqueue_self hl]
  by_cases hneg : l < 0
  · simp [hneg]
  · simp [hneg]

theorem Ok.enqueue (h : P.Ok F n) (hl : l.natAbs ≤ n) : (P.uncheckedEnqueue l).Ok F n where
  clauses := h.clauses
  size := (List.length_set).trans h.size
  watched := h.watched
  grounded v hv := by
    by_cases hvl : v = l.natAbs
    · subst hvl
      rw [assigned_enqueue_self (by rw [h.size]; omega)]
      have hlast : l ∈ (P.uncheckedEnqueue l).trail := List.mem_append_right _ List.mem_cons_self
      by_cases hneg : l < 0
      · have habs : -(l.natAbs : ℤ) = l := by omega
        refine .inr ⟨if_pos hneg, ?_⟩
        rwa [habs]
      · have habs : (l.natAbs : ℤ) = l := by omega
        refine .inl ⟨if_neg hneg, ?_⟩
        rwa [habs]
    · rw [assigned_enqueue_of_ne hvl] at hv ⊢
      exact (h.grounded v hv).imp (fun h => ⟨h.1, List.mem_append_left _ h.2⟩)
        (fun h => ⟨h.1, List.mem_append_left _ h.2⟩)

/-- The number of unassigned variables. -/
def zeros (P : Propagator) : ℕ := P.assign.count 0

theorem zeros_enqueue (hl : l.natAbs < P.assign.length) (hv : P.value l = 2) :
    (P.uncheckedEnqueue l).zeros + 1 = P.zeros := by
  have hzero : P.assign[l.natAbs] = 0 := by
    have hget := value_eq_two.mp hv
    simpa [assigned, hl] using hget
  have hpos : 0 < P.assign.count 0 := List.count_pos_iff.mpr (hzero ▸ List.getElem_mem hl)
  have hne : ((if l < 0 then -1 else 1 : ℤ) == 0) = false := by split <;> rfl
  show (P.assign.set l.natAbs _).count 0 + 1 = P.assign.count 0
  rw [List.count_set hl, hzero, hne]
  simp only [beq_self_eq_true, if_true, Bool.false_eq_true, if_false]
  omega

/-! ### What propagation adds -/

/-- **`Q` extends `P` by `more`**: literals on variables unassigned in `P`, no variable twice, which
the formula and the trail of `P` imply. -/
structure Extends (F : List Clause) (P Q : Propagator) (more : List ℤ) : Prop where
  trail : Q.trail = P.trail ++ more
  fresh : ∀ l ∈ more, P.assigned l.natAbs = 0
  nodup : (more.map Int.natAbs).Nodup
  kept : ∀ v, v ∉ more.map Int.natAbs → Q.assigned v = P.assigned v
  set : ∀ l ∈ more, Q.assigned l.natAbs ≠ 0
  inRange : ∀ l ∈ more, l.natAbs < P.assign.length
  length : Q.assign.length = P.assign.length
  zeros : Q.zeros + more.length = P.zeros
  entailed : ∀ a, formulaTrue a F = true → cubeTrue a P.trail = true → cubeTrue a more = true

theorem Extends.of_eq (htrail : Q.trail = P.trail) (hassign : Q.assign = P.assign) :
    Extends F P Q [] where
  trail := htrail.trans (List.append_nil _).symm
  fresh _ hl := absurd hl List.not_mem_nil
  nodup := List.nodup_nil
  kept v _ := by rw [assigned, assigned, hassign]
  set _ hl := absurd hl List.not_mem_nil
  inRange _ hl := absurd hl List.not_mem_nil
  length := by rw [hassign]
  zeros := by rw [Propagator.zeros, Propagator.zeros, hassign]; rfl
  entailed _ _ _ := rfl

theorem Extends.enqueue (hl : l.natAbs < P.assign.length) (hv : P.value l = 2)
    (hunit : ∀ a, formulaTrue a F = true → cubeTrue a P.trail = true → litTrue a l = true) :
    Extends F P (P.uncheckedEnqueue l) [l] where
  trail := rfl
  fresh k hk := by
    rw [List.mem_singleton.mp hk]
    exact value_eq_two.mp hv
  nodup := List.nodup_singleton _
  kept v hvl := assigned_enqueue_of_ne fun h => hvl (by simp [h])
  set k hk := assigned_enqueue_ne_zero hl fun hkl =>
    absurd (congrArg Int.natAbs (List.mem_singleton.mp hk)) hkl
  inRange k hk := by rwa [List.mem_singleton.mp hk]
  length := List.length_set
  zeros := zeros_enqueue hl hv
  entailed a ha ht := by simp [cubeTrue, hunit a ha ht]

/-- An extension assigns only what was unassigned. -/
theorem Extends.avoids {more : List ℤ} (h : Extends F P Q more) {v : ℕ} (hv : P.assigned v ≠ 0) :
    v ∉ more.map Int.natAbs := by
  intro hmem
  obtain ⟨l, hl, rfl⟩ := List.mem_map.mp hmem
  exact hv (h.fresh l hl)

theorem Extends.assigned_eq {more : List ℤ} (h : Extends F P Q more) {v : ℕ}
    (hv : P.assigned v ≠ 0) : Q.assigned v = P.assigned v := h.kept v (h.avoids hv)

/-- The variables that are added differ from each other and from the assigned ones. -/
theorem Extends.nodup_append {more : List ℤ} (h : Extends F P Q more) {lits : List ℤ}
    (hnodup : (lits.map Int.natAbs).Nodup) (hset : ∀ l ∈ lits, P.assigned l.natAbs ≠ 0) :
    ((lits ++ more).map Int.natAbs).Nodup := by
  rw [List.map_append]
  refine hnodup.append h.nodup fun v hv => ?_
  obtain ⟨l, hl, rfl⟩ := List.mem_map.mp hv
  exact h.avoids (hset l hl)

/-- An extension keeps the literals of the trail assigned. -/
theorem Extends.set_trail {more : List ℤ} (h : Extends F P Q more)
    (hset : ∀ l ∈ P.trail, P.assigned l.natAbs ≠ 0) : ∀ l ∈ Q.trail, Q.assigned l.natAbs ≠ 0 := by
  intro l hl
  rw [h.trail] at hl
  rcases List.mem_append.mp hl with hl | hl
  · rw [h.assigned_eq (hset l hl)]
    exact hset l hl
  · exact h.set l hl

theorem Extends.trans {more more' : List ℤ} (h : Extends F P Q more) (h' : Extends F Q R more') :
    Extends F P R (more ++ more') := by
  have hdisj : ∀ l ∈ more', l.natAbs ∉ more.map Int.natAbs := by
    intro l hl hmem
    obtain ⟨k, hk, hkl⟩ := List.mem_map.mp hmem
    exact h.set k hk (by rw [hkl]; exact h'.fresh l hl)
  refine ⟨?_, ?_, ?_, ?_, ?_, ?_, h'.length.trans h.length, ?_, ?_⟩
  · rw [h'.trail, h.trail, List.append_assoc]
  · intro l hl
    rcases List.mem_append.mp hl with hl | hl
    · exact h.fresh l hl
    · rw [← h.kept _ (hdisj l hl)]
      exact h'.fresh l hl
  · exact h'.nodup_append h.nodup h.set
  · intro v hv
    rw [List.map_append, List.mem_append, not_or] at hv
    rw [h'.kept v hv.2, h.kept v hv.1]
  · intro l hl
    rcases List.mem_append.mp hl with hl | hl
    · rw [h'.assigned_eq (h.set l hl)]
      exact h.set l hl
    · exact h'.set l hl
  · intro l hl
    rcases List.mem_append.mp hl with hl | hl
    · exact h.inRange l hl
    · rw [← h.length]
      exact h'.inRange l hl
  · rw [List.length_append]
    have h1 := h.zeros
    have h2 := h'.zeros
    omega
  · intro a ha ht
    have hmore := h.entailed a ha ht
    have hmore' := h'.entailed a ha (by rw [h.trail, cubeTrue_append, ht, hmore]; rfl)
    rw [cubeTrue_append, hmore, hmore']
    rfl

/-- An extension has the models of the formula that the trail has. -/
theorem Extends.cubeTrue_eq {more : List ℤ} (h : Extends F P Q more) (ha : formulaTrue a F = true) :
    cubeTrue a Q.trail = cubeTrue a P.trail := by
  rw [h.trail, cubeTrue_append]
  cases hp : cubeTrue a P.trail with
  | false => rfl
  | true => exact h.entailed a ha hp

/-! ### One clause -/

/-- The scan passes no true literal, counts the unassigned ones, and remembers one of them. -/
theorem scanClause_spec {c : Clause} {f₀ f : ℕ} {u₀ u w₀ w : ℤ}
    (h : P.scanClause c f₀ u₀ w₀ = some (f, u, w)) :
    f₀ ≤ f ∧ (∀ l ∈ c, P.value l = 0 ∨ P.value l = 2) ∧
      (∀ l ∈ c, P.value l = 2 → f₀ < f ∧ (l = u ∨ f₀ + 2 ≤ f)) ∧
      (f₀ = f → u = u₀) ∧ (f₀ < f → u ∈ c ∧ P.value u = 2) := by
  induction c generalizing f₀ u₀ w₀ with
  | nil =>
      obtain ⟨rfl, hrest⟩ := Prod.mk.inj (Option.some.inj h)
      obtain ⟨rfl, -⟩ := Prod.mk.inj hrest
      exact ⟨le_refl _, nofun, nofun, fun _ => rfl, fun hlt => absurd hlt (lt_irrefl _)⟩
  | cons k c ih =>
      rw [scanClause] at h
      split at h
      · exact nomatch h
      · rename_i hk1
        split at h
        · rename_i hk2
          obtain ⟨hle, hval, hfree, hsame, hmem⟩ := ih h
          refine ⟨by omega, ?_, ?_, by omega, ?_⟩
          · exact List.forall_mem_cons.mpr ⟨.inr hk2, hval⟩
          · refine List.forall_mem_cons.mpr ⟨fun _ => ⟨by omega, ?_⟩, fun l hl hl2 => ?_⟩
            · by_cases heq : f₀ + 1 = f
              · exact .inl (hsame heq).symm
              · exact .inr (by omega)
            · have hlt := (hfree l hl hl2).1
              exact ⟨by omega, .inr (by omega)⟩
          · intro _
            by_cases heq : f₀ + 1 = f
            · rw [hsame heq]
              exact ⟨List.mem_cons_self, hk2⟩
            · obtain ⟨humem, hu2⟩ := hmem (by omega)
              exact ⟨List.mem_cons_of_mem k humem, hu2⟩
        · rename_i hk2
          obtain ⟨hle, hval, hfree, hsame, hmem⟩ := ih h
          have hk0 : P.value k = 0 := by
            have := @value_le_two P k
            omega
          refine ⟨hle, List.forall_mem_cons.mpr ⟨.inl hk0, hval⟩, ?_, hsame, ?_⟩
          · exact List.forall_mem_cons.mpr ⟨fun h2 => absurd h2 hk2, hfree⟩
          · intro hlt
            obtain ⟨humem, hu2⟩ := hmem hlt
            exact ⟨List.mem_cons_of_mem k humem, hu2⟩

/-- A literal that is false in the propagator is false in every model of the trail. -/
theorem Ok.litTrue_false (h : P.Ok F n) (hl : l ≠ 0) (hv : P.value l = 0)
    (ht : cubeTrue a P.trail = true) : litTrue a l = false := by
  have hneg := cubeTrue_iff.mp ht (-l) (h.mem_of_false hv)
  rw [litTrue_neg hl] at hneg
  simpa using hneg

/-- **A unit clause implies its open literal.** -/
theorem Ok.unit (h : P.Ok F n) (hF : InRange n F) {c : Clause} (hc : c ∈ F) {u w : ℤ}
    (hscan : P.scanClause c 0 0 0 = some (1, u, w)) (ha : formulaTrue a F = true)
    (ht : cubeTrue a P.trail = true) : litTrue a u = true := by
  obtain ⟨-, hval, hfree, -, -⟩ := scanClause_spec hscan
  obtain ⟨l, hl, hlt⟩ := List.any_eq_true.mp (List.all_eq_true.mp ha c hc)
  rcases hval l hl with h0 | h2
  · rw [h.litTrue_false (hF c hc l hl).1 h0 ht] at hlt
    exact Bool.noConfusion hlt
  · have heq : l = u := (hfree l hl h2).2.resolve_right (by decide)
    rwa [← heq]

/-- **A clause without open or true literals has no model on the trail.** -/
theorem Ok.falsified (h : P.Ok F n) (hF : InRange n F) {c : Clause} (hc : c ∈ F) {u w : ℤ}
    (hscan : P.scanClause c 0 0 0 = some (0, u, w)) (ha : formulaTrue a F = true) :
    cubeTrue a P.trail = false := by
  obtain ⟨-, hval, hfree, -, -⟩ := scanClause_spec hscan
  by_contra ht
  rw [Bool.not_eq_false] at ht
  obtain ⟨l, hl, hlt⟩ := List.any_eq_true.mp (List.all_eq_true.mp ha c hc)
  rcases hval l hl with h0 | h2
  · rw [h.litTrue_false (hF c hc l hl).1 h0 ht] at hlt
    exact Bool.noConfusion hlt
  · exact absurd (hfree l hl h2).1 (lt_irrefl 0)

/-! ### Propagation -/

/-- What a part of the propagation from `P` to `Q` does; `ok = false` reports a conflict. -/
structure Step (F : List Clause) (n : ℕ) (P Q : Propagator) (ok : Bool) : Prop where
  stays : Q.Ok F n
  adds : ∃ more, Extends F P Q more
  conflict : ok = false → ∀ a, formulaTrue a F = true → cubeTrue a Q.trail = false

theorem Step.trans {ok : Bool} (h : Step F n P Q true) (h' : Step F n Q R ok) : Step F n P R ok := by
  obtain ⟨more, hmore⟩ := h.adds
  obtain ⟨more', hmore'⟩ := h'.adds
  exact ⟨h'.stays, ⟨_, hmore.trans hmore'⟩, h'.conflict⟩

/-- Watch lists that name clauses only. -/
def NamesClauses (F : List Clause) (watches : List (List ℕ)) : Prop :=
  ∀ ws ∈ watches, ∀ ci ∈ ws, ci < F.length

theorem NamesClauses.set {watches : List (List ℕ)} (h : NamesClauses F watches) {ws : List ℕ}
    (hws : ∀ ci ∈ ws, ci < F.length) (i : ℕ) : NamesClauses F (watches.set i ws) := by
  intro ws' hmem
  rcases List.mem_or_eq_of_mem_set hmem with hmem | rfl
  · exact h ws' hmem
  · exact hws

theorem NamesClauses.getD {watches : List (List ℕ)} (h : NamesClauses F watches) (i : ℕ) :
    ∀ ci ∈ watches.getD i [], ci < F.length := by
  intro ci hci
  by_cases hi : i < watches.length
  · rw [List.getD_eq_getElem _ _ hi] at hci
    exact h _ (List.getElem_mem hi) ci hci
  · rw [List.getD_eq_default _ _ (by omega)] at hci
    exact absurd hci List.not_mem_nil

theorem NamesClauses.watch {watches : List (List ℕ)} (h : NamesClauses F watches) {ci : ℕ}
    (hci : ci < F.length) (l : ℤ) : NamesClauses F (watch watches l ci) := by
  refine h.set ?_ (litIdx l)
  intro cj hcj
  rcases List.mem_append.mp hcj with hcj | hcj
  · exact h.getD _ cj hcj
  · rwa [List.mem_singleton.mp hcj]

/-- A propagator that differs only in watches, queue head and flag is in order, too. -/
theorem Ok.of_eq (h : P.Ok F n) (hclauses : Q.clauses = P.clauses) (hassign : Q.assign = P.assign)
    (htrail : Q.trail = P.trail) (hwatched : NamesClauses F Q.watches) : Q.Ok F n where
  clauses := hclauses.trans h.clauses
  size := by rw [hassign]; exact h.size
  watched := hwatched
  grounded v := by
    rw [assigned, hassign, htrail]
    exact h.grounded v

theorem scanWatches_step (hF : InRange n F) (P : Propagator) (kept rest : List ℕ) (h : P.Ok F n)
    (hkept : ∀ ci ∈ kept, ci < F.length) (hrest : ∀ ci ∈ rest, ci < F.length) :
    Step F n P (scanWatches P kept rest).2.2 (scanWatches P kept rest).1 ∧
      (∀ ci ∈ (scanWatches P kept rest).2.1, ci < F.length) ∧
      (scanWatches P kept rest).2.2.qhead = P.qhead ∧
      (scanWatches P kept rest).2.2.unsat = P.unsat := by
  induction rest generalizing P kept with
  | nil => exact ⟨⟨h, ⟨[], .of_eq rfl rfl⟩, nofun⟩, hkept, rfl, rfl⟩
  | cons ci rest ih =>
      obtain ⟨hci, hrest⟩ := List.forall_mem_cons.mp hrest
      have hkept' : ∀ cj ∈ kept ++ [ci], cj < F.length := fun cj hcj =>
        (List.mem_append.mp hcj).elim (hkept cj) fun hcj => by rwa [List.mem_singleton.mp hcj]
      have hmem : P.clauses.getD ci [] ∈ F := by
        rw [h.clauses, List.getD_eq_getElem _ _ hci]
        exact List.getElem_mem hci
      rw [scanWatches]
      split
      · exact ih P (kept ++ [ci]) h hkept' hrest
      · rename_i hscan
        refine ⟨⟨h, ⟨[], .of_eq rfl rfl⟩, fun _ a ha => h.falsified hF hmem hscan ha⟩, ?_, rfl, rfl⟩
        intro cj hcj
        rcases List.mem_append.mp hcj with hcj | hcj
        · exact hkept cj hcj
        · exact (List.mem_cons.mp hcj).elim (fun heq => heq ▸ hci) (hrest cj)
      · rename_i unit w hscan
        obtain ⟨humem, hu2⟩ := (scanClause_spec hscan).2.2.2.2 Nat.one_pos
        rw [if_pos hu2]
        have hrange := hF _ hmem unit humem
        have hlt : unit.natAbs < P.assign.length := by rw [h.size]; omega
        have hone : Step F n P (P.uncheckedEnqueue unit) true :=
          ⟨h.enqueue hrange.2,
            ⟨[unit], .enqueue hlt hu2 fun a ha ht => h.unit hF hmem hscan ha ht⟩, nofun⟩
        obtain ⟨hstep, hws, hq, hu⟩ := ih (P.uncheckedEnqueue unit) (kept ++ [ci]) hone.stays hkept' hrest
        exact ⟨hone.trans hstep, hws, hq, hu⟩
      · rename_i f unit newW hscan
        have hmoved : Step F n P { P with watches := watch P.watches newW ci } true :=
          ⟨h.of_eq rfl rfl rfl (NamesClauses.watch h.watched hci newW), ⟨[], .of_eq rfl rfl⟩, nofun⟩
        obtain ⟨hstep, hws, hq, hu⟩ := ih _ kept hmoved.stays hkept hrest
        exact ⟨hmoved.trans hstep, hws, hq, hu⟩

theorem propagateLit_step (hF : InRange n F) (h : P.Ok F n) (p : ℤ) :
    Step F n P (propagateLit P p).2 (propagateLit P p).1 ∧
      (propagateLit P p).2.qhead = P.qhead ∧ (propagateLit P p).2.unsat = P.unsat := by
  obtain ⟨hstep, hws, hq, hu⟩ := scanWatches_step hF P [] (P.watches.getD (litIdx (-p)) []) h
    (fun ci hci => absurd hci List.not_mem_nil) (NamesClauses.getD h.watched _)
  have hset : NamesClauses F ((scanWatches P [] (P.watches.getD (litIdx (-p)) [])).2.2.watches.set
      (litIdx (-p)) (scanWatches P [] (P.watches.getD (litIdx (-p)) [])).2.1) :=
    NamesClauses.set hstep.stays.watched hws _
  obtain ⟨more, hmore⟩ := hstep.adds
  refine ⟨⟨hstep.stays.of_eq rfl rfl rfl hset, ⟨more, ?_⟩, hstep.conflict⟩, hq, hu⟩
  exact List.append_nil more ▸ hmore.trans (.of_eq rfl rfl)

/-- One iteration of the loop of `propagate`. -/
theorem iteration_step (hF : InRange n F) (h : P.Ok F n) (p : ℤ) :
    Step F n P (propagateLit { P with qhead := P.qhead + 1 } p).2
      (propagateLit { P with qhead := P.qhead + 1 } p).1 := by
  have hnext : Step F n P { P with qhead := P.qhead + 1 } true :=
    ⟨h.of_eq rfl rfl rfl h.watched, ⟨[], .of_eq rfl rfl⟩, nofun⟩
  exact hnext.trans (propagateLit_step hF hnext.stays p).1

theorem propagateLoop_step (hF : InRange n F) (fuel : ℕ) (P : Propagator) (h : P.Ok F n) :
    Step F n P (propagateLoop fuel P).2 (propagateLoop fuel P).1 ∧
      ((propagateLoop fuel P).1 = true → (propagateLoop fuel P).2.unsat = P.unsat) := by
  induction fuel generalizing P with
  | zero => exact ⟨⟨h, ⟨[], .of_eq rfl rfl⟩, nofun⟩, fun _ => rfl⟩
  | succ fuel ih =>
      rw [propagateLoop]
      split
      · exact ⟨⟨h, ⟨[], .of_eq rfl rfl⟩, nofun⟩, fun _ => rfl⟩
      · rename_i p hp
        have hstep := iteration_step hF h p
        have hunsat := (propagateLit_step hF (P := { P with qhead := P.qhead + 1 })
          (h.of_eq rfl rfl rfl h.watched) p).2.2
        split
        · rename_i Q hQ
          rw [hQ] at hstep hunsat
          obtain ⟨hrest, hsame⟩ := ih Q hstep.stays
          exact ⟨hstep.trans hrest, fun hok => (hsame hok).trans hunsat⟩
        · rename_i Q hQ
          rw [hQ] at hstep
          obtain ⟨more, hmore⟩ := hstep.adds
          refine ⟨⟨hstep.stays.of_eq rfl rfl rfl hstep.stays.watched, ⟨more, ?_⟩, ?_⟩, nofun⟩
          · exact List.append_nil more ▸ hmore.trans (.of_eq rfl rfl)
          · exact fun _ a ha => hstep.conflict rfl a ha

/-- **Propagation is sound.**  It appends implied literals on unassigned variables, a conflict means
that no model of the formula extends the trail, and only a conflict sets the flag. -/
theorem propagate_extends (hF : InRange n F) (h : P.Ok F n) :
    Step F n P P.propagate.2 P.propagate.1 ∧ (P.propagate.1 = true → P.propagate.2.unsat = P.unsat) :=
  propagateLoop_step hF _ P h

theorem propagateLoop_complete (hF : InRange n F) (fuel : ℕ) (P : Propagator) (h : P.Ok F n)
    (hfuel : P.trail.length + P.zeros ≤ P.qhead + fuel)
    (hok : (propagateLoop fuel P).1 = true) :
    (propagateLoop fuel P).2.trail.length ≤ (propagateLoop fuel P).2.qhead := by
  induction fuel generalizing P with
  | zero =>
      show P.trail.length ≤ P.qhead
      omega
  | succ fuel ih =>
      rw [propagateLoop] at hok ⊢
      split
      · rename_i hnone
        exact List.getElem?_eq_none_iff.mp hnone
      · rename_i p hp
        rw [hp] at hok
        have hstep := iteration_step hF h p
        have hq := (propagateLit_step hF (P := { P with qhead := P.qhead + 1 })
          (h.of_eq rfl rfl rfl h.watched) p).2.1
        split
        · rename_i Q hQ
          simp only [hQ] at hok hstep hq
          obtain ⟨more, hmore⟩ := hstep.adds
          have hlen : Q.trail.length = P.trail.length + more.length := by
            rw [hmore.trail, List.length_append]
          have hzeros := hmore.zeros
          exact ih Q hstep.stays (by omega) hok
        · rename_i Q hQ
          simp only [hQ] at hok
          exact Bool.noConfusion hok

/-- **Enough iterations**: without a conflict the loop ends with every literal of the trail
processed. -/
theorem propagate_complete (hF : InRange n F) (h : P.Ok F n) (hok : P.propagate.1 = true) :
    P.propagate.2.trail.length ≤ P.propagate.2.qhead := by
  refine propagateLoop_complete hF _ P h ?_ hok
  have hle : P.zeros ≤ P.assign.length := List.count_le_length
  omega

/-! ### Restarting and cancelling -/

theorem unassign_length (assign lits : List ℤ) : (unassign assign lits).length = assign.length := by
  unfold unassign
  induction lits generalizing assign with
  | nil => rfl
  | cons l lits ih => rw [List.foldl_cons, ih, List.length_set]

/-- Exactly the variables of the literals are reset. -/
theorem unassign_getD (assign lits : List ℤ) (v : ℕ) :
    (unassign assign lits).getD v 0 = if v ∈ lits.map Int.natAbs then 0 else assign.getD v 0 := by
  unfold unassign
  induction lits generalizing assign with
  | nil => rfl
  | cons l lits ih =>
      rw [List.foldl_cons, ih, List.map_cons]
      by_cases hv : v ∈ lits.map Int.natAbs
      · rw [if_pos hv, if_pos (List.mem_cons_of_mem _ hv)]
      · rw [if_neg hv]
        by_cases hvl : v = l.natAbs
        · subst hvl
          rw [if_pos List.mem_cons_self]
          by_cases hlt : l.natAbs < assign.length
          · simp [hlt]
          · rw [List.getD_eq_default]
            rw [List.length_set]
            omega
        · rw [if_neg (List.not_mem_cons_of_ne_of_not_mem hvl hv)]
          simp [List.getD_eq_getElem?_getD, List.getElem?_set_ne (Ne.symm hvl)]

/-- Resetting the variables of the end of the trail keeps the rest of it grounded. -/
theorem Ok.truncate (h : P.Ok F n) {pre post lits : List ℤ} (htrail : P.trail = pre ++ post)
    (hlits : ∀ l, l ∈ lits ↔ l ∈ post) (hQ : Q.assign = unassign P.assign lits)
    (hclauses : Q.clauses = P.clauses) (hwatches : Q.watches = P.watches) (hpre : Q.trail = pre) :
    Q.Ok F n where
  clauses := hclauses.trans h.clauses
  size := by rw [hQ, unassign_length]; exact h.size
  watched := by rw [hwatches]; exact h.watched
  grounded v hv := by
    rw [assigned, hQ, unassign_getD] at hv ⊢
    by_cases hmem : v ∈ lits.map Int.natAbs
    · rw [if_pos hmem] at hv
      exact absurd rfl hv
    · rw [if_neg hmem] at hv ⊢
      have hstay : ∀ l : ℤ, l.natAbs = v → l ∈ P.trail → l ∈ Q.trail := by
        intro l hlv hl
        rw [htrail] at hl
        rw [hpre]
        refine (List.mem_append.mp hl).resolve_right fun hpost => hmem ?_
        rw [← hlv]
        exact List.mem_map_of_mem ((hlits l).mpr hpost)
      exact (h.grounded v hv).imp (fun h => ⟨h.1, hstay _ (Int.natAbs_natCast v) h.2⟩)
        (fun h => ⟨h.1, hstay _ (by rw [Int.natAbs_neg, Int.natAbs_natCast]) h.2⟩)

theorem Ok.restart (h : P.Ok F n) : P.restart.Ok F n :=
  @Ok.truncate F n P P.restart h [] P.trail P.trail rfl (fun _ => Iff.rfl) rfl rfl rfl rfl

theorem Ok.cancel (h : P.Ok F n) (pos : ℕ) : (P.cancelUntilPos pos).Ok F n :=
  h.truncate (List.take_append_drop pos P.trail).symm (fun _ => List.mem_reverse) rfl rfl rfl rfl

theorem buildWatches_names (watches : List (List ℕ)) (cs : List Clause) (ci : ℕ)
    (h : NamesClauses F watches) (hlen : ci + cs.length ≤ F.length) :
    NamesClauses F (buildWatches watches cs ci) := by
  induction cs generalizing watches ci with
  | nil => exact h
  | cons c cs ih =>
      rw [List.length_cons] at hlen
      have hci : ci < F.length := by omega
      match c with
      | [] => exact ih watches (ci + 1) h (by omega)
      | [l] => exact ih _ (ci + 1) (h.watch hci l) (by omega)
      | l₁ :: l₂ :: _ => exact ih _ (ci + 1) ((h.watch hci l₁).watch hci l₂) (by omega)

theorem new_ok (n : ℕ) (F : List Clause) : (new n F).Ok F n where
  clauses := rfl
  size := List.length_replicate
  watched := by
    refine buildWatches_names _ F 0 ?_ (by omega)
    intro ws hws ci hci
    rw [List.eq_of_mem_replicate hws] at hci
    exact absurd hci List.not_mem_nil
  grounded v hv := by
    refine absurd ?_ hv
    by_cases hlt : v < n + 1
    · simp [assigned, new, hlt]
    · rw [assigned, List.getD_eq_default]
      rw [new, List.length_replicate]
      omega

end Propagator

end HydraSAT.CubeGenCli
