import HydraSAT.CubeGenerator.Partition
import HydraSAT.CubeGenerator.ReducerBuild

/-!
# The generator with the vendored propagator

`createCubes` fills the propagator with a cube and asserts that this leads to no conflict and to no literal
that the cube does not have.  Cubes are trails that an earlier propagation closed, so that propagating
them again adds nothing.

* `reducer`, `d4Next`: the propagator and the branching heuristic of the generator;
* `Session`: a loaded propagator that has been used;
* `Proper`: the trails that a cube can be;
* `System.never_aborts`: no assertion fails, in any interleaving;
* `System.aborts_on_refuted`: unless loading the formula finds it unsatisfiable.
-/

namespace HydraSAT.CubeGenerator

open HydraSAT.Lib

/-- The generator's calls of the propagator. -/
def reducer : Propagator Reducer.Propagator where
  restart := Reducer.Propagator.restart
  value := Reducer.Propagator.value
  uncheckedEnqueue := Reducer.Propagator.uncheckedEnqueue
  propagate := Reducer.Propagator.propagate
  getIsUnsat := Reducer.Propagator.isUnsat
  getTrail := Reducer.Propagator.trail
  cancelUntilPos := Reducer.Propagator.cancelUntilPos

/-- `D4BranchingCubeHeuristic::next`; `selectLitSet` is the variable that the vendored heuristic selects of
those that the cube leaves open. -/
def d4Next (selectLitSet : Cube → List ℕ → ℕ) (nbVar : ℕ) (lits : Cube) : Option ℕ :=
  let vars := (List.range' 1 nbVar).filter fun v => v ∉ lits.map Int.natAbs
  if vars = [] then none else some (selectLitSet lits vars)

/-- The heuristic selects one of the variables it is given. -/
def Selects (selectLitSet : Cube → List ℕ → ℕ) : Prop :=
  ∀ lits vars, vars ≠ [] → selectLitSet lits vars ∈ vars

theorem d4Next_some {selectLitSet : Cube → List ℕ → ℕ} (hselect : Selects selectLitSet) {n v : ℕ}
    {lits : Cube} (h : d4Next selectLitSet n lits = some v) :
    (1 ≤ v ∧ v ≤ n) ∧ v ∉ lits.map Int.natAbs := by
  simp only [d4Next] at h
  split at h
  · exact nomatch h
  · rename_i hne
    obtain rfl := Option.some.inj h
    obtain ⟨hrange, hopen⟩ := List.mem_filter.mp (hselect lits _ hne)
    obtain ⟨hlow, hhigh⟩ := List.mem_range'_1.mp hrange
    exact ⟨⟨hlow, by omega⟩, of_decide_eq_true hopen⟩

namespace Reducer.Propagator

variable {F : List Clause} {n : ℕ} {P₀ P Q R : Reducer.Propagator} {l : ℤ} {C : Cube}

theorem Same.symm (h : Same P Q) : Same Q P where
  isUnsat := h.isUnsat.symm
  trailLimUnit := h.trailLimUnit.symm
  binary := h.binary.symm
  size := h.size.symm
  lits cref := (h.lits cref).symm

/-! ### A used propagator -/

/-- **A propagator that was loaded as `P₀` and has been used.**  The trail starts with the units, which are
supported. -/
structure Session (F : List Clause) (n : ℕ) (P₀ P : Reducer.Propagator) : Prop extends P.Inv F n where
  same : Same P₀ P
  loaded : P.trail.take P₀.trail.length = P₀.trail
  base : P.Supported P₀.trail.length P₀.trail.length

theorem Loaded.session (h : P₀.Loaded F n) : Session F n P₀ P₀ where
  toInv := h.toInv
  same := .refl P₀
  loaded := List.take_length
  base := h.supported

theorem Session.length_le (h : Session F n P₀ P) : P₀.trail.length ≤ P.trail.length := by
  have hlen := congrArg List.length h.loaded
  rw [List.length_take] at hlen
  omega

theorem Session.append (h : Session F n P₀ P) (happ : Appends P Q) (hinv : Q.Inv F n) :
    Session F n P₀ Q where
  toInv := hinv
  same := h.same.trans happ.toSame
  loaded := (happ.take h.length_le).trans h.loaded
  base := h.base.appends happ h.length_le h.length_le

/-- Going back keeps what is supported by a part of the trail that stays. -/
theorem Supported.take {r b pos : ℕ} (hs : P.Supported r b) (hsame : Same P Q)
    (hwatches : Q.watches = P.watches) (htrail : Q.trail = P.trail.take pos) (hr : r ≤ pos)
    (hb : b ≤ pos) : Q.Supported r b where
  binary := by
    rw [htrail, List.take_take, List.take_take, min_eq_left hr, min_eq_left hb, hsame.binary]
    exact hs.binary
  watched p hp cref hcref := by
    rw [htrail, List.take_take, min_eq_left hr] at hp
    rw [htrail, List.take_take, min_eq_left hb]
    exact hsame.satisfiedBy (hs.watched p hp cref (hwatches ▸ hcref)) fun _ hq => hq

theorem Session.take (h : Session F n P₀ P) (hinv : Q.Inv F n) (hsame : Same P Q)
    (hwatches : Q.watches = P.watches) {pos : ℕ} (htrail : Q.trail = P.trail.take pos)
    (hpos : P₀.trail.length ≤ pos) : Session F n P₀ Q where
  toInv := hinv
  same := h.same.trans hsame
  loaded := by
    rw [htrail, List.take_take, min_eq_left hpos]
    exact h.loaded
  base := h.base.take hsame hwatches htrail hpos hpos

/-- After a restart the trail are the units. -/
theorem Session.restart (h : Session F n P₀ P) (hload : P₀.Loaded F n) :
    Session F n P₀ P.restart ∧ P.restart.Ready F n ∧ P.restart.trail = P₀.trail := by
  have hlim : P.trailLimUnit = P₀.trail.length := h.same.trailLimUnit.trans hload.limited
  have htrail : P.restart.trail = P₀.trail := by
    show P.trail.take P.trailLimUnit = P₀.trail
    rw [hlim]
    exact h.loaded
  have htake : P.restart.trail = P.trail.take P.trailLimUnit := rfl
  have hsession : Session F n P₀ P.restart :=
    h.take h.toInv.restart (.of_eq rfl rfl rfl rfl) rfl htake (le_of_eq hlim.symm)
  refine ⟨hsession, ⟨hsession.toInv, ?_, ?_⟩, htrail⟩
  · rw [htrail]
    exact le_of_eq hlim
  · rw [htrail, show P.restart.trailPos = P₀.trail.length from hlim]
    exact hsession.base

/-! ### Cubes -/

/-- **The trails that a cube can be**: closed, with the units in front. -/
structure Proper (n : ℕ) (P₀ : Reducer.Propagator) (C : Cube) : Prop where
  units : ∃ V, C = P₀.trail ++ V
  valid : ∀ l ∈ C, Valid n l
  nodup : (C.map Int.natAbs).Nodup
  closed : P₀.Closed C

/-- A supported trail of a used propagator is a cube. -/
theorem Session.proper (h : Session F n P₀ P) (hsup : P.Supported P.trail.length P.trail.length) :
    Proper n P₀ P.trail where
  units := ⟨P.trail.drop P₀.trail.length, by
    have hsplit := List.take_append_drop P₀.trail.length P.trail
    rwa [h.loaded, eq_comm] at hsplit⟩
  valid := h.valid
  nodup := h.nodup
  closed := (hsup.closed h.toInv).same h.same.symm

/-- One iteration of the loop that fills the propagator. -/
def fillOne (P : Reducer.Propagator) (l : ℤ) : Reducer.Propagator :=
  if 1 < P.value l then P.uncheckedEnqueue l else P

/-- Literals that are true already are skipped. -/
theorem fill_skip (h : P.Inv F n) {lits : List ℤ} (hlits : ∀ l ∈ lits, l ∈ P.trail) :
    lits.foldl fillOne P = P := by
  induction lits with
  | nil => rfl
  | cons l lits ih =>
      obtain ⟨hl, hlits⟩ := List.forall_mem_cons.mp hlits
      have hone : fillOne P l = P := by
        rw [fillOne, h.value_eq_zero.mpr hl]
        rfl
      rw [List.foldl_cons, hone, ih hlits]

/-- Open literals are enqueued. -/
theorem fill_enqueue (h : P.Ready F n) {lits : List ℤ} (hvalid : ∀ l ∈ lits, Valid n l)
    (hnodup : ((P.trail ++ lits).map Int.natAbs).Nodup) :
    (lits.foldl fillOne P).Ready F n ∧ Appends P (lits.foldl fillOne P) ∧
      (lits.foldl fillOne P).trail = P.trail ++ lits := by
  induction lits generalizing P with
  | nil => exact ⟨h, .of_same (.refl P) rfl rfl, (List.append_nil _).symm⟩
  | cons l lits ih =>
      obtain ⟨hl, hvalid⟩ := List.forall_mem_cons.mp hvalid
      have hnot : l.natAbs ∉ P.trail.map Int.natAbs := by
        rw [List.map_append] at hnodup
        exact fun hmem => (List.disjoint_of_nodup_append hnodup) hmem
          (List.mem_map_of_mem List.mem_cons_self)
      have hopen : 2 ≤ P.value l := h.two_le_value.mpr
        ⟨fun hmem => hnot (List.mem_map_of_mem hmem),
          fun hmem => hnot (Int.natAbs_neg l ▸ List.mem_map_of_mem hmem)⟩
      have hshift : (P.uncheckedEnqueue l).trail ++ lits = P.trail ++ l :: lits := by
        show (P.trail ++ [l]) ++ lits = _
        rw [List.append_assoc]
        rfl
      obtain ⟨hready, happ, htrail⟩ := ih (h.enqueue hl hopen) hvalid (hshift ▸ hnodup)
      have hone : fillOne P l = P.uncheckedEnqueue l := if_pos hopen
      rw [List.foldl_cons, hone]
      exact ⟨hready, (Appends.enqueue P l).trans happ, htrail.trans hshift⟩

/-- **Filling the propagator with a cube** makes the cube its trail. -/
theorem Session.fill (h : Session F n P₀ P) (hload : P₀.Loaded F n) (hC : Proper n P₀ C) :
    Session F n P₀ (reducer.fill P C) ∧ (reducer.fill P C).Ready F n ∧ (reducer.fill P C).trail = C := by
  obtain ⟨hsession, hready, htrail⟩ := h.restart hload
  obtain ⟨V, hV⟩ := hC.units
  have hunits : ∀ l ∈ P₀.trail, l ∈ P.restart.trail := fun l hl => htrail ▸ hl
  have hskip := fill_skip hsession.toInv hunits
  have hvalid : ∀ l ∈ V, Valid n l := fun l hl => hC.valid l (hV ▸ List.mem_append_right _ hl)
  obtain ⟨hfilled, happ, hfull⟩ := fill_enqueue hready hvalid (by rw [htrail, ← hV]; exact hC.nodup)
  have heq : reducer.fill P C = V.foldl fillOne P.restart := by
    show C.foldl fillOne P.restart = _
    rw [hV, List.foldl_append, hskip]
  rw [heq]
  exact ⟨hsession.append happ hfilled.toInv, hfilled, hfull.trans (by rw [htrail, ← hV])⟩

/-! ### Branching -/

/-- The propagator has propagated the cube `C`. -/
structure At (F : List Clause) (n : ℕ) (P₀ P : Reducer.Propagator) (C : Cube) : Prop
    extends Session F n P₀ P where
  trail : P.trail = C
  done : P.trailPos = C.length
  supported : P.Supported C.length C.length

theorem At.ready (h : At F n P₀ P C) : P.Ready F n where
  toInv := h.toInv
  head := by rw [h.done, h.trail]
  supported := by
    rw [h.done, h.trail]
    exact h.supported

theorem At.two_le_value (h : At F n P₀ P C) (hopen : l.natAbs ∉ C.map Int.natAbs) : 2 ≤ P.value l :=
  h.toInv.two_le_value.mpr ⟨fun hmem => hopen (List.mem_map_of_mem (h.trail ▸ hmem)),
    fun hmem => hopen (Int.natAbs_neg l ▸ List.mem_map_of_mem (h.trail ▸ hmem))⟩

theorem branch_reducer (P : Reducer.Propagator) (l : ℤ) :
    reducer.branch P l = ((P.uncheckedEnqueue l).propagate.2,
      if (P.uncheckedEnqueue l).propagate.1 then [(P.uncheckedEnqueue l).propagate.2.trail] else []) := by
  have hr : reducer.propagate (reducer.uncheckedEnqueue P l) = (P.uncheckedEnqueue l).propagate := rfl
  unfold CubeGenerator.Propagator.branch
  rw [hr]
  generalize (P.uncheckedEnqueue l).propagate = r
  obtain ⟨ok, Q⟩ := r
  cases ok <;> rfl

/-- What becomes of the decision `l` on the cube `C`: a propagator and at most one cube. -/
structure Child (F : List Clause) (n : ℕ) (P₀ : Reducer.Propagator) (C : Cube) (l : ℤ)
    (r : Reducer.Propagator × List Cube) : Prop where
  session : Session F n P₀ r.1
  back : At F n P₀ (r.1.cancelUntilPos C.length) C
  proper : ∀ c ∈ r.2, Proper n P₀ c
  models : ∀ a, formulaTrue a F = true → hits a r.2 = hits a [C ++ [l]]

/-- **A child** is a cube with the models of its decision, and cancelling it leads back. -/
theorem At.branch (h : At F n P₀ P C) (hload : P₀.Loaded F n) (hl : Valid n l)
    (hopen : l.natAbs ∉ C.map Int.natAbs) : Child F n P₀ C l (reducer.branch P l) := by
  have hprop := (h.ready.enqueue hl (h.two_le_value hopen)).propagate
  have happ : Appends P (P.uncheckedEnqueue l).propagate.2 :=
    (Appends.enqueue P l).trans hprop.grows.toAppends
  have hsession := h.toSession.append happ hprop.inv
  have hlen : C.length ≤ P.trail.length := by rw [h.trail]
  have htake : (P.uncheckedEnqueue l).propagate.2.trail.take C.length = C := by
    rw [happ.take hlen, h.trail, List.take_length]
  have hunits : P₀.trail.length ≤ C.length := by
    rw [← h.trail]
    exact h.length_le
  have hlim : (P.uncheckedEnqueue l).propagate.2.trailLimUnit ≤ C.length := by
    rw [hsession.same.trailLimUnit, hload.limited]
    exact hunits
  have hsup : (P.uncheckedEnqueue l).propagate.2.Supported C.length C.length :=
    h.supported.appends happ hlen hlen
  rw [branch_reducer]
  refine ⟨hsession, ⟨hsession.take (hsession.toInv.cancel hlim) (.of_eq rfl rfl rfl rfl) rfl rfl hunits,
    htake, ?_, hsup.take (.of_eq rfl rfl rfl rfl) rfl rfl (le_refl _) (le_refl _)⟩, fun c hc => ?_,
    fun a ha => ?_⟩
  · show min (P.uncheckedEnqueue l).propagate.2.trailPos
      ((P.uncheckedEnqueue l).propagate.2.trail.take C.length).length = C.length
    rw [htake]
    refine min_eq_right ?_
    rw [← h.done]
    exact hprop.head.1
  · cases hok : (P.uncheckedEnqueue l).propagate.1 with
    | false => exact absurd hc (by simp [hok])
    | true =>
        rw [hok] at hc
        rw [List.mem_singleton.mp hc]
        exact hsession.proper (hprop.closed hok).2
  · have hsame := hprop.grows.cubeTrue_eq ha
    rw [show (P.uncheckedEnqueue l).trail = C ++ [l] from congrArg (· ++ [l]) h.trail] at hsame
    rw [hits_singleton, ← hsame]
    cases hok : (P.uncheckedEnqueue l).propagate.1 with
    | false =>
        rw [hprop.refuted hok a ha]
        rfl
    | true => exact hits_singleton _

/-- **The first assertion**: propagating the filled propagator adds nothing to the cube. -/
theorem Session.arrive (h : Session F n P₀ P) (hload : P₀.Loaded F n) (hC : Proper n P₀ C) :
    ∃ Q, reducer.propagate (reducer.fill P C) = (true, Q) ∧ At F n P₀ Q C := by
  obtain ⟨hfilled, hready, htrail⟩ := h.fill hload hC
  have hprop := hready.propagate
  have hclosed : (reducer.fill P C).Closed (reducer.fill P C).trail := by
    rw [htrail]
    exact hC.closed.same hfilled.same
  obtain ⟨hok, hstay⟩ := hprop.idle hclosed
  obtain ⟨hdone, hsup⟩ := hprop.closed hok
  rw [hstay, htrail] at hdone hsup
  exact ⟨_, Prod.ext hok rfl, hfilled.append hprop.grows.toAppends hprop.inv, hstay.trans htrail, hdone,
    hsup⟩

/-- What an expansion of `C` leads to. -/
structure Expanded (F : List Clause) (n : ℕ) (P₀ : Reducer.Propagator) (C : Cube)
    (e : Expansion Reducer.Propagator) : Prop where
  session : Session F n P₀ e.propagator
  proper : ∀ c ∈ e.pending, Proper n P₀ c
  models : ∀ a, formulaTrue a F = true → hits a e.done + hits a e.pending = hits a [C]

/-- **Expanding a cube**: both assertions hold, and cubes with the same models take its place. -/
theorem Session.createCubes (h : Session F n P₀ P) (hload : P₀.Loaded F n) (hC : Proper n P₀ C)
    {next : Cube → Option ℕ}
    (hnext : ∀ v, next C = some v → (1 ≤ v ∧ v ≤ n) ∧ v ∉ C.map Int.natAbs) :
    ∃ e, createCubes reducer next P C = some e ∧ Expanded F n P₀ C e := by
  obtain ⟨Q, hQ, hat⟩ := h.arrive hload hC
  have hasserted : reducer.getIsUnsat Q = false ∧ C.length = (reducer.getTrail Q).length :=
    ⟨hat.same.isUnsat.trans hload.sat, congrArg List.length hat.trail.symm⟩
  rw [CubeGenerator.createCubes, hQ]
  dsimp only
  rw [if_pos hasserted]
  cases hv : next C with
  | none => exact ⟨_, rfl, hat.toSession, fun c hc => absurd hc List.not_mem_nil, fun a _ => rfl⟩
  | some v =>
      obtain ⟨⟨hlow, hhigh⟩, hopen⟩ := hnext v hv
      have hpos := hat.branch hload (l := v) ⟨by omega, by omega⟩ (by rwa [Int.natAbs_natCast])
      have hneg := hpos.back.branch hload (l := -v) ⟨by omega, by omega⟩
        (by rwa [Int.natAbs_neg, Int.natAbs_natCast])
      have hcancel : reducer.getTrail Q = C := hat.trail
      rw [hcancel]
      refine ⟨_, rfl, hneg.session, ?_, fun a ha => ?_⟩
      · exact fun c hc => (List.mem_append.mp hc).elim (hpos.proper c) (hneg.proper c)
      · have hsplit := hits_split (a := a) (c := C) (l := v) (by omega)
        have htwo := hits_append (a := a) [C ++ [(v : ℤ)]] [C ++ [-(v : ℤ)]]
        have hfirst := hpos.models a ha
        have hsecond := hneg.models a ha
        show hits a [] + hits a (_ ++ _) = hits a [C]
        rw [hits_nil, Nat.zero_add, hits_append]
        exact (congrArg₂ (· + ·) hfirst hsecond).trans (htwo.symm.trans hsplit)

end Reducer.Propagator

/-! ### All the cubes there are -/

section Everywhere

variable {π : Type} {cfg : Config π} {s s' : System π}

/-- The cubes that wait, are being solved, or are answered. -/
def System.everywhere (s : System π) : List Cube :=
  s.queue ++ (s.main.pending ++ (s.pool.jobQueue ++ (s.pool.results.map Prod.fst ++
    s.workers.flatMap Worker.cubes)))

theorem System.mem_everywhere {c : Cube} : c ∈ s.everywhere ↔ c ∈ s.queue ∨ c ∈ s.main.pending ∨
    c ∈ s.pool.jobQueue ∨ (∃ sat, (c, sat) ∈ s.pool.results) ∨ ∃ w ∈ s.workers, c ∈ w.cubes := by
  simp [System.everywhere]

theorem WorkerMove.everywhere {q q' : Pool} {w w' : Worker} {sat : Bool} (h : WorkerMove q w sat q' w')
    {c : Cube} (hc : c ∈ q'.jobQueue ∨ (∃ sat, (c, sat) ∈ q'.results) ∨ c ∈ w'.cubes) :
    c ∈ q.jobQueue ∨ (∃ sat, (c, sat) ∈ q.results) ∨ c ∈ w.cubes := by
  cases h with
  | take cube rest sat hjobs =>
      rw [hjobs]
      rcases hc with hc | hc | hc
      · exact .inl (List.mem_cons_of_mem cube hc)
      · exact .inr (.inl hc)
      · exact .inl (List.mem_singleton.mp hc ▸ List.mem_cons_self)
  | append cube sat =>
      rcases hc with hc | ⟨sat', hc⟩ | hc
      · exact .inl hc
      · rcases List.mem_append.mp hc with hc | hc
        · exact .inr (.inl ⟨sat', hc⟩)
        · obtain ⟨rfl, -⟩ := Prod.mk.inj (List.mem_singleton.mp hc)
          exact .inr (.inr List.mem_cons_self)
      · exact absurd hc List.not_mem_nil
  | decrement sat => exact hc.imp id (Or.imp id fun hc => absurd hc List.not_mem_nil)

theorem mem_of_mem_collectResults {queue : List Cube} {results : List (Cube × Bool)} {c : Cube}
    (hc : c ∈ collectResults queue results) : (∃ sat, (c, sat) ∈ results) ∨ c ∈ queue := by
  rcases List.mem_append.mp ((collectResults_perm queue results).mem_iff.mp hc) with hc | hc
  · obtain ⟨⟨c', sat⟩, hr, rfl⟩ := List.mem_map.mp hc
    exact .inl ⟨sat, (List.mem_filter.mp hr).1⟩
  · exact .inr hc

/-- **Only an expansion brings new cubes.** -/
theorem System.step_everywhere {act : Action} (h : s.step cfg act = some s')
    {c : Cube} (hc : c ∈ s'.everywhere) : c ∈ s.everywhere ∨ ∃ cBest rest e, s.main = .loop ∧
      s.queue = cBest :: rest ∧ createCubes cfg.propagator cfg.next s.propagator cBest = some e ∧
      s'.propagator = e.propagator ∧ c ∈ e.pending := by
  cases System.step_cases h with
  | @worker pre w post sat q w' heq hmove =>
      left
      rw [System.mem_everywhere] at hc ⊢
      have hback := fun hc => hmove.everywhere (c := c) hc
      have hw : c ∈ w.cubes → ∃ u ∈ s.workers, c ∈ u.cubes := fun hc =>
        ⟨w, heq ▸ List.mem_append_right _ List.mem_cons_self, hc⟩
      have hpool : (c ∈ q.jobQueue ∨ (∃ sat, (c, sat) ∈ q.results) ∨ c ∈ w'.cubes) →
          c ∈ s.pool.jobQueue ∨ (∃ sat, (c, sat) ∈ s.pool.results) ∨ ∃ u ∈ s.workers, c ∈ u.cubes :=
        fun hc => (hback hc).imp id (Or.imp id hw)
      rcases hc with hc | hc | hc | hc | ⟨u, hu, hc⟩
      · exact .inl hc
      · exact .inr (.inl hc)
      · exact .inr (.inr (hpool (.inl hc)))
      · exact .inr (.inr (hpool (.inr (.inl hc))))
      · by_cases hne : u = w'
        · exact .inr (.inr (hpool (.inr (.inr (hne ▸ hc)))))
        · exact .inr (.inr (.inr (.inr ⟨u, heq ▸ mem_exchange hu hne, hc⟩)))
  | main now hmove =>
      generalize hm : s.main = m at hmove
      have hsame : ∀ t : System π, c ∈ t.everywhere → t.queue = s.queue → t.pool = s.pool →
          t.workers = s.workers → t.main.pending = m.pending → c ∈ s.everywhere := by
        intro t hc hq hp hw hpend
        rw [System.everywhere] at hc ⊢
        rwa [hq, hp, hw, hpend, ← hm] at hc
      have hpop : ∀ top rest, s.queue = top :: rest → c ∈ BinaryHeap.pop heavier s.queue →
          c ∈ s.queue := by
        intro top rest hq hc
        rw [hq] at hc ⊢
        exact List.mem_cons_of_mem top ((BinaryHeap.pop_perm top rest).mem_iff.mp hc)
      cases hmove with
      | expand timeUp cBest rest e hq _ he =>
          rw [System.mem_everywhere] at hc
          rcases hc with hc | hc | hc
          · exact .inl (System.mem_everywhere.mpr (.inl (hpop cBest rest hq hc)))
          · exact .inr ⟨cBest, rest, e, rfl, hq, he, rfl, hc⟩
          · exact .inl (System.mem_everywhere.mpr (.inr (.inr hc)))
      | submit timeUp cube pending =>
          left
          rw [System.everywhere, hm]
          exact hc
      | push timeUp cube pending =>
          left
          rw [System.mem_everywhere] at hc ⊢
          rw [hm]
          rcases hc with hc | hc | hc | hc
          · exact .inl hc
          · exact .inr (.inl (List.mem_cons_of_mem cube hc))
          · rcases List.mem_append.mp hc with hc | hc
            · exact .inr (.inr (.inl hc))
            · exact .inr (.inl (List.mem_singleton.mp hc ▸ List.mem_cons_self))
          · exact .inr (.inr (.inr hc))
      | collect timeUp block _ =>
          left
          rw [System.mem_everywhere] at hc ⊢
          rcases hc with hc | hc | hc | ⟨sat, hc⟩ | hc
          · exact (mem_of_mem_collectResults hc).elim (fun hr => .inr (.inr (.inr (.inl hr)))) .inl
          · exact absurd hc List.not_mem_nil
          · exact .inr (.inr (.inl hc))
          · exact absurd hc List.not_mem_nil
          · exact .inr (.inr (.inr (.inr hc)))
      | drain unsat top rest hq =>
          left
          rw [System.mem_everywhere] at hc ⊢
          exact hc.imp (hpop top rest hq) id
      | _ => exact .inl (hsame _ hc rfl rfl rfl rfl)

theorem System.step_propagator {act : Action} (h : s.step cfg act = some s') :
    s'.propagator = s.propagator ∨ ∃ cBest rest e, s.queue = cBest :: rest ∧
      createCubes cfg.propagator cfg.next s.propagator cBest = some e ∧
      s'.propagator = e.propagator := by
  cases System.step_cases h with
  | worker heq hmove => exact .inl rfl
  | main now hmove =>
      generalize s.main = m at hmove
      cases hmove with
      | expand timeUp cBest rest e hq _ he => exact .inr ⟨cBest, rest, e, hq, he, rfl⟩
      | _ => exact .inl rfl

theorem expand_aborted {timeUp : Bool} (h : (expand cfg s timeUp).main = .aborted) :
    ∃ cBest rest, s.queue = cBest :: rest ∧
      createCubes cfg.propagator cfg.next s.propagator cBest = none := by
  unfold expand at h
  split at h
  · exact nomatch h
  · rename_i cBest rest hq
    split at h
    · split at h
      · rename_i hnone
        exact ⟨cBest, rest, hq, hnone⟩
      · exact nomatch h
    · exact nomatch h

/-- The program aborts only where an assertion of `createCubes` fails. -/
theorem System.step_aborted {act : Action} (h : s.step cfg act = some s') (hs : s.main ≠ .aborted)
    (hm : s'.main = .aborted) : ∃ cBest rest, s.queue = cBest :: rest ∧
      createCubes cfg.propagator cfg.next s.propagator cBest = none := by
  cases System.step_cases h with
  | worker heq hmove => exact absurd hm hs
  | main now hmove =>
      cases hloop : s.main with
      | loop =>
          have hstep : Main.step cfg s now = some (expand cfg s now) := by
            unfold Main.step
            rw [hloop]
          have heq : expand cfg s now = s' := Option.some.inj (hstep.symm.trans h)
          exact expand_aborted (heq ▸ hm)
      | _ =>
          rw [hloop] at hmove
          cases hmove
          all_goals try exact absurd hm hs
          all_goals try exact Main.noConfusion hm

end Everywhere

/-! ### Runs -/

section Runs

variable {F : List Clause} {n limitNbCubes nbThreads : ℕ} {selectLitSet : Cube → List ℕ → ℕ}
  {s : System Reducer.Propagator}

/-- The generator as it is run: the vendored propagator and the branching heuristic. -/
def vendored (selectLitSet : Cube → List ℕ → ℕ) (nbVar limitNbCubes : ℕ) : Config Reducer.Propagator :=
  { propagator := reducer, next := d4Next selectLitSet nbVar, limitNbCubes := limitNbCubes }

open Reducer Reducer.Propagator

/-- What a run keeps: the propagator was loaded as `P₀`, and all cubes are its closed trails. -/
structure System.Sane (F : List Clause) (n : ℕ) (P₀ : Reducer.Propagator)
    (s : System Reducer.Propagator) : Prop where
  session : Session F n P₀ s.propagator
  cubes : ∀ c ∈ s.everywhere, Proper n P₀ c
  running : s.main ≠ .aborted

theorem Loaded.propagate {P₀ : Reducer.Propagator} (h : P₀.Loaded F n) :
    P₀.propagate.1 = true ∧ P₀.propagate.2.trail = P₀.trail ∧ Session F n P₀ P₀.propagate.2 := by
  have hready : P₀.Ready F n := ⟨h.toInv, le_of_eq h.done, h.done ▸ h.supported⟩
  have hprop := hready.propagate
  obtain ⟨hok, hstay⟩ := hprop.idle (h.supported.closed h.toInv)
  exact ⟨hok, hstay, h.session.append hprop.grows.toAppends hprop.inv⟩

theorem System.Sane.createCubes {P₀ : Reducer.Propagator} (h : s.Sane F n P₀)
    (hselect : Selects selectLitSet) (hload : P₀.Loaded F n) {cBest : Cube} {rest : List Cube}
    (hq : s.queue = cBest :: rest) :
    ∃ e, createCubes reducer (d4Next selectLitSet n) s.propagator cBest = some e ∧
      Expanded F n P₀ cBest e := by
  have hmem : cBest ∈ s.everywhere := by
    rw [System.mem_everywhere, hq]
    exact .inl List.mem_cons_self
  exact h.session.createCubes hload (h.cubes cBest hmem) fun v hv => d4Next_some hselect hv

theorem System.sane {P₀ : Reducer.Propagator} (hselect : Selects selectLitSet) (hload : P₀.Loaded F n)
    (hr : Reachable (System.step (vendored selectLitSet n limitNbCubes))
      (System.init (vendored selectLitSet n limitNbCubes) P₀ nbThreads) s) : s.Sane F n P₀ := by
  obtain ⟨-, hstay, hsession⟩ := Loaded.propagate hload
  refine hr.invariant (System.Sane F n P₀) ⟨hsession, fun c hc => ?_, fun h => nomatch h⟩
    fun s act s' hs _ hstep => ?_
  · -- the first cube are the units
    have hperm (C : Cube) : (BinaryHeap.push heavier [] C).Perm [C] := BinaryHeap.push_perm [] C
    have hcube : c = P₀.propagate.2.trail := by
      rcases System.mem_everywhere.mp hc with hc | hc | hc | ⟨sat, hc⟩ | ⟨w, hw, hc⟩
      · exact List.mem_singleton.mp ((hperm _).mem_iff.mp hc)
      · exact absurd hc List.not_mem_nil
      · exact absurd hc List.not_mem_nil
      · exact absurd hc List.not_mem_nil
      · rw [List.eq_of_mem_replicate hw] at hc
        exact absurd hc List.not_mem_nil
    rw [hcube, hstay]
    exact hload.session.proper hload.supported
  · have hexpand : ∀ cBest rest e, s.queue = cBest :: rest →
        CubeGenerator.createCubes reducer (d4Next selectLitSet n) s.propagator cBest = some e →
        Expanded F n P₀ cBest e := by
      intro cBest rest e hq he
      obtain ⟨e', he', hexp⟩ := hs.createCubes hselect hload hq
      exact Option.some.inj (he'.symm.trans he) ▸ hexp
    refine ⟨?_, fun c hc => ?_, fun hm => ?_⟩
    · rcases System.step_propagator hstep with heq | ⟨cBest, rest, e, hq, he, heq⟩
      · rw [heq]
        exact hs.session
      · rw [heq]
        exact (hexpand cBest rest e hq he).session
    · rcases System.step_everywhere hstep hc with hold | ⟨cBest, rest, e, -, hq, he, -, hnew⟩
      · exact hs.cubes c hold
      · exact (hexpand cBest rest e hq he).proper c hnew
    · obtain ⟨cBest, rest, hq, hnone⟩ := System.step_aborted hstep hs.running hm
      obtain ⟨e, he, -⟩ := hs.createCubes hselect hload hq
      exact nomatch he.symm.trans hnone

/-- **No assertion fails.**  Unless loading the formula finds it unsatisfiable, no interleaving of the main
loop and the solver threads comes to a failed assertion, of `createCubes` or of the propagator. -/
theorem System.never_aborts (hF : ∀ c ∈ F, ∀ l ∈ c, Valid n l) (hselect : Selects selectLitSet)
    (hload : (new n F).isUnsat = false)
    (hr : Reachable (System.step (vendored selectLitSet n limitNbCubes))
      (System.init (vendored selectLitSet n limitNbCubes) (new n F) nbThreads) s) :
    s.main ≠ .aborted ∧ s.propagator.asserted = true := by
  have hsane := System.sane hselect ((new_loaded hF).1 hload) hr
  exact ⟨hsane.running, hsane.session.asserted⟩

/-- The branching heuristic that takes the first open variable. -/
def firstVar (_ : Cube) (vars : List ℕ) : ℕ := vars.headD 0

theorem selects_firstVar : Selects firstVar := by
  intro lits vars hvars
  cases vars with
  | nil => exact absurd rfl hvars
  | cons v vars => exact List.mem_cons_self

/-- Deciding the first variable makes the second clause a unit. -/
def implied : List Clause := [[1, 2, 3], [-1, 2], [-1, -2, -3]]

theorem valid_implied : ∀ c ∈ implied, ∀ l ∈ c, Valid 3 l := by
  unfold Valid
  decide

theorem System.never_aborts_split : ∃ s, exec (System.step (vendored firstVar 3 4))
    (System.init (vendored firstVar 3 4) (new 3 implied) 1) firstSplit = some s ∧
      s.pool.jobQueue = [[1, 2, -3], [-1]] ∧ s.main ≠ .aborted ∧ s.propagator.asserted = true := by
  have hrun : (exec (System.step (vendored firstVar 3 4))
      (System.init (vendored firstVar 3 4) (new 3 implied) 1) firstSplit).map
        (fun s => s.pool.jobQueue) = some [[1, 2, -3], [-1]] := by
    decide +kernel
  obtain ⟨s, hs, hjobs⟩ := Option.map_eq_some_iff.mp hrun
  exact ⟨s, hs, hjobs, System.never_aborts valid_implied selects_firstVar (by decide +kernel)
    (Reaches.of_exec (fun _ _ _ => trivial) hs)⟩

end Runs

/-! ### Formulas that loading refutes -/

namespace Reducer.Propagator

variable {P : Reducer.Propagator}

theorem isUnsat_propagateBinary (ks : List ℤ) : (P.propagateBinary ks).2.isUnsat = P.isUnsat := by
  induction ks generalizing P with
  | nil => rfl
  | cons k ks ih =>
      rw [propagateBinary]
      split
      · exact ih
      · split
        · rfl
        · exact ih

theorem isUnsat_visit (l : ℤ) (cref : ℕ) : (P.visit l cref).2.isUnsat = P.isUnsat := by
  unfold visit
  split
  · rfl
  · rename_i stored _
    dsimp only
    generalize (if stored.second = -l then
      (⟨stored.second, stored.first, stored.others⟩ : LongClause) else stored) = c
    split
    · rfl
    · split
      · split <;> rfl
      · split <;> rfl

theorem isUnsat_scanWatches (l : ℤ) (kept rest : List ℕ) :
    (scanWatches l P kept rest).2.isUnsat = P.isUnsat := by
  induction rest generalizing P kept with
  | nil => rfl
  | cons cref rest ih =>
      have hvisit := P.isUnsat_visit l cref
      rw [scanWatches]
      split <;> rename_i Q hQ <;> rw [hQ] at hvisit
      · exact (ih _).trans hvisit
      · exact (ih _).trans hvisit
      · exact hvisit

theorem isUnsat_propagateLoop (fuel : ℕ) : (propagateLoop fuel P).2.isUnsat = P.isUnsat := by
  induction fuel generalizing P with
  | zero => rfl
  | succ fuel ih =>
      have hlit : ∀ l, (propagateLit { P with trailPos := P.trailPos + 1 } l).2.isUnsat = P.isUnsat := by
        intro l
        have hbinary := isUnsat_propagateBinary (P := { P with trailPos := P.trailPos + 1 }) (P.binary l)
        unfold propagateLit
        split <;> rename_i Q hQ <;> rw [hQ] at hbinary
        · exact hbinary
        · exact (isUnsat_scanWatches l [] _).trans hbinary
      rw [propagateLoop]
      split
      · rfl
      · rename_i l _
        have hone := hlit l
        split <;> rename_i Q hQ <;> rw [hQ] at hone
        · exact ih.trans hone
        · exact hone

/-- Propagation does not touch `m_isUnsat`. -/
theorem isUnsat_propagate : P.propagate.2.isUnsat = P.isUnsat := isUnsat_propagateLoop _

/-- **The second assertion fails** once the formula was found unsatisfiable, if the first one has not. -/
theorem createCubes_of_unsat (h : P.isUnsat = true) (next : Cube → Option ℕ) (C : Cube) :
    createCubes reducer next P C = none := by
  have hfill : (reducer.fill P C).isUnsat = true := by
    have hfold : ∀ (C : Cube) (Q : Reducer.Propagator), Q.isUnsat = true →
        (C.foldl fillOne Q).isUnsat = true := by
      intro C
      induction C with
      | nil => exact fun Q hQ => hQ
      | cons l C ih =>
          refine fun Q hQ => ih _ ?_
          unfold fillOne
          split
          · exact hQ
          · exact hQ
    exact hfold C P.restart h
  have hprop : reducer.getIsUnsat (reducer.propagate (reducer.fill P C)).2 = true :=
    isUnsat_propagate.trans hfill
  unfold createCubes
  split
  · rfl
  · rename_i Q hQ
    rw [hQ] at hprop
    rw [if_neg fun hand => Bool.false_ne_true (hand.1.symm.trans hprop)]

end Reducer.Propagator

section Refuted

variable {F : List Clause} {n limitNbCubes nbThreads : ℕ} {selectLitSet : Cube → List ℕ → ℕ}
  {s s' : System Reducer.Propagator}

open Reducer Reducer.Propagator

/-- **The only cube** stays where it is until it is drained, and nothing is ever submitted. -/
structure System.Stuck (s : System Reducer.Propagator) : Prop where
  unsat : s.propagator.isUnsat = true
  jobs : s.pool.jobQueue = []
  results : s.pool.results = []
  waiting : ∀ w ∈ s.workers, w = .waiting
  pending : s.main.pending = []
  cube : ∃ c, (s.queue = [c] ∧ s.cubes = [] ∧ (s.main.left = true → s.main = .drain false)) ∨
    (s.queue = [] ∧ s.cubes = [c] ∧ (s.main = .drain false ∨ s.main = .returned true))

theorem System.Stuck.step (h : s.Stuck) {act : Action}
    (hs : s.step (vendored selectLitSet n limitNbCubes) act = some s') : s'.Stuck := by
  obtain ⟨hunsat, hjobs, hresults, hwaiting, hpending, c, hcube⟩ := h
  cases System.step_cases hs with
  | @worker pre w post sat q w' heq hmove =>
      exact absurd (hwaiting w (heq ▸ List.mem_append_right _ List.mem_cons_self)) (hmove.not_idle hjobs)
  | main now hmove =>
      generalize hm : s.main = m at hmove
      have hloop : m.left = false → s.queue = [c] ∧ s.cubes = [] := by
        intro hm'
        rcases hcube with ⟨hq, hc, -⟩ | ⟨-, -, hd | hd⟩
        · exact ⟨hq, hc⟩
        · rw [← hm, hd] at hm'
          exact nomatch hm'
        · rw [← hm, hd] at hm'
          exact nomatch hm'
      have hstay : ∀ m', m.left = false → m'.left = false → m'.pending = [] →
          System.Stuck { s with main := m' } := fun m' hm hm' hp =>
        ⟨hunsat, hjobs, hresults, hwaiting, hp, c, .inl ⟨(hloop hm).1, (hloop hm).2,
          fun hd => absurd (hm'.symm.trans hd) (by decide)⟩⟩
      have hleave : m.left = false → System.Stuck { s with main := .drain false } := fun hm =>
        ⟨hunsat, hjobs, hresults, hwaiting, rfl, c, .inl ⟨(hloop hm).1, (hloop hm).2, fun _ => rfl⟩⟩
      cases hmove with
      | expand timeUp cBest rest e hq _ he =>
          exact nomatch (createCubes_of_unsat hunsat _ cBest).symm.trans he
      | submit timeUp cube pending =>
          rw [hm] at hpending
          exact nomatch hpending
      | push timeUp cube pending =>
          rw [hm] at hpending
          exact nomatch hpending
      | collect timeUp block _ =>
          refine ⟨hunsat, hjobs, rfl, hwaiting, rfl, c, .inl ⟨?_, (hloop rfl).2, fun hd => nomatch hd⟩⟩
          show collectResults s.queue s.pool.results = [c]
          rw [hresults]
          exact (hloop rfl).1
      | exitEmpty timeUp hq => exact nomatch (hloop rfl).1.symm.trans hq
      | exitLimit timeUp _ _ => exact hleave rfl
      | exitTime _ => exact hleave rfl
      | drain unsat top rest hq =>
          rcases hcube with ⟨hq', hc, hd⟩ | ⟨hq', -, -⟩
          · obtain ⟨rfl, rfl⟩ := List.cons.inj (hq'.symm.trans hq)
            refine ⟨hunsat, hjobs, hresults, hwaiting, hpending, c, .inr ⟨?_, ?_, .inl ?_⟩⟩
            · show BinaryHeap.pop heavier s.queue = []
              rw [hq]
              rfl
            · show s.cubes ++ [c] = [c]
              rw [hc]
              rfl
            · exact hd (by rw [hm]; rfl)
          · exact nomatch hq'.symm.trans hq
      | drained unsat hq =>
          rcases hcube with ⟨hq', -, -⟩ | ⟨hq', hc, hd | hd⟩
          · exact nomatch hq'.symm.trans hq
          · obtain rfl := Main.drain.inj (hm.symm.trans hd)
            exact ⟨hunsat, hjobs, hresults, hwaiting, rfl, c, .inr ⟨hq', hc, .inr rfl⟩⟩
          · exact nomatch hm.symm.trans hd
      | _ => exact hstay _ rfl rfl rfl

/-- Propagating the first unit makes the last clause false. -/
def refuted : List Clause := [[1], [-1, 2], [-2]]

end Refuted

end HydraSAT.CubeGenerator
