import HydraSAT.CubeGenCli.Fixpoint
import HydraSAT.CubeGenCli.Partition

/-!
# Reloading a cube

A queued cube is a trail that was closed under propagation when it was queued.  With two watches on
different literals in every clause that is so for all watch lists, and the refilled propagator adds
nothing to the cube; with both watches of a clause on one literal the cube lacks a literal that other
watch lists may supply later.

* `Settled`: what holds of a cube that is closed under propagation;
* `Propagator.propagateLoop_idle`: propagation adds nothing to it, wherever the watches are;
* `reloads_exactly`: the refilled propagator has exactly the literals of the cube;
* `reloads_more`: a state of the loop in which it has one more, which the heuristic then branches on.
-/

namespace HydraSAT.CubeGenCli

open HydraSAT.Lib

variable {F : List Clause} {n : ℕ} {s : State} {top : Cube} {rest : List Cube}

namespace Propagator

variable {P Q : Propagator} {l : ℤ}

/-! ### Propagation that adds nothing -/

/-- The clause has a true literal, or two unassigned ones, or none that is not false. -/
def Idle (P : Propagator) (c : Clause) : Prop :=
  (∃ q ∈ c, P.value q = 1) ∨ (∃ l ∈ c, ∃ k ∈ c, l ≠ k ∧ P.value l = 2 ∧ P.value k = 2) ∨
    ∀ l ∈ c, P.value l = 0

theorem Idle.no_unit {c : Clause} (h : P.Idle c) {u w : ℤ} :
    P.scanClause c 0 0 0 ≠ some (1, u, w) := by
  intro hscan
  obtain ⟨-, hval, hfree, -, hmem⟩ := scanClause_spec hscan
  rcases h with ⟨q, hq, hq1⟩ | ⟨l, hl, k, hk, hne, hl2, hk2⟩ | hfalse
  · rcases hval q hq with h0 | h2 <;> omega
  · have hlu := (hfree l hl hl2).2.resolve_right (by omega)
    have hku := (hfree k hk hk2).2.resolve_right (by omega)
    exact hne (hlu.trans hku.symm)
  · obtain ⟨hu, hu2⟩ := hmem Nat.one_pos
    have hu0 := hfalse u hu
    omega

/-- Moving watches assigns nothing. -/
theorem scanWatches_idle (P : Propagator) (kept rest : List ℕ)
    (hidle : ∀ ci ∈ rest, P.Idle (P.clauses.getD ci [])) :
    (scanWatches P kept rest).2.2.trail = P.trail ∧
      (scanWatches P kept rest).2.2.assign = P.assign := by
  induction rest generalizing P kept with
  | nil => exact ⟨rfl, rfl⟩
  | cons ci rest ih =>
      obtain ⟨hci, hrest⟩ := List.forall_mem_cons.mp hidle
      rw [scanWatches]
      split
      · exact ih P (kept ++ [ci]) hrest
      · exact ⟨rfl, rfl⟩
      · rename_i unit w hscan
        exact absurd hscan hci.no_unit
      · rename_i f unit newW hscan
        exact ih { P with watches := watch P.watches newW ci } kept hrest

theorem value_congr (hassign : Q.assign = P.assign) (l : ℤ) : Q.value l = P.value l := by
  unfold Propagator.value assigned
  rw [hassign]

/-- **Propagation adds nothing to a trail that is closed under the clauses**, wherever the watches
are. -/
theorem propagateLoop_idle (hF : InRange n F) {recorded : List ℕ} (fuel : ℕ) (P : Propagator)
    (h : P.Inv F n recorded) (hown : P.Owned F) (hidle : ∀ c ∈ F, Wide c → P.Idle c) :
    (propagateLoop fuel P).2.trail = P.trail := by
  induction fuel generalizing P with
  | zero => rfl
  | succ fuel ih =>
      rw [propagateLoop]
      split
      · rfl
      · rename_i p hp
        have hpmem : p ∈ P.trail := List.mem_of_getElem? hp
        have hok : Ok F n { P with qhead := P.qhead + 1 } := h.ok.of_eq rfl rfl rfl h.ok.watched
        -- a clause that watches `-p` and is not wide has no other literal
        have hentries : ∀ ci ∈ P.watchers (-p),
            Idle { P with qhead := P.qhead + 1 } (P.clauses.getD ci []) := by
          intro ci hci
          rw [h.ok.clauses]
          by_cases hwide : Wide (F.getD ci [])
          · refine hidle _ ?_ hwide
            rw [List.getD_eq_getElem _ _ (NamesClauses.getD h.ok.watched _ ci hci)]
            exact List.getElem_mem _
          · refine .inr (.inr fun l hl => ?_)
            have hlp : l = -p := by
              by_contra hne
              exact hwide ⟨l, hl, -p, hown _ ci hci, hne⟩
            rw [hlp]
            exact h.value_negated hpmem
        have htrail : (propagateLit { P with qhead := P.qhead + 1 } p).2.trail = P.trail :=
          (scanWatches_idle _ [] _ hentries).1
        have hassign : (propagateLit { P with qhead := P.qhead + 1 } p).2.assign = P.assign :=
          (scanWatches_idle _ [] _ hentries).2
        have hnext := hown.propagateLit hF hok h.size (h.exact.inRange p hpmem).2
        have hinv := h.iterate hF hp
        split
        · rename_i Q hQ
          rw [hQ] at htrail hassign hinv hnext
          refine (ih Q (hinv rfl) hnext fun c hc hwide => ?_).trans htrail
          unfold Idle
          simp only [value_congr hassign]
          exact hidle c hc hwide
        · rename_i Q hQ
          rw [hQ] at htrail
          exact htrail

theorem Inv.forget {recorded : List ℕ} (h : P.Inv F n recorded) : P.Inv F n [] :=
  { h with recorded := fun _ hr => absurd hr List.not_mem_nil }

theorem Inv.value_eq_two_iff {recorded : List ℕ} (h : P.Inv F n recorded) :
    P.value l = 2 ↔ l.natAbs ∉ P.trail.map Int.natAbs := by
  constructor
  · intro hv hmem
    obtain ⟨k, hk, hkl⟩ := List.mem_map.mp hmem
    exact h.exact.set k hk (by rw [hkl]; exact value_eq_two.mp hv)
  · intro hfree
    have hle := @value_le_two P l
    have h0 : P.value l ≠ 0 := fun h0 =>
      hfree (List.mem_map.mpr ⟨-l, h.ok.mem_of_false h0, Int.natAbs_neg l⟩)
    have h1 : P.value l ≠ 1 := fun h1 => hfree (List.mem_map_of_mem (h.ok.mem_of_true h1))
    omega

end Propagator

/-! ### Cubes that are closed under propagation -/

/-- A cube on distinct variables that leaves no clause unit. -/
structure Settled (F : List Clause) (n : ℕ) (c : Cube) : Prop where
  nodup : (c.map Int.natAbs).Nodup
  inRange : ∀ l ∈ c, l ≠ 0 ∧ l.natAbs ≤ n
  closed : ∀ cl ∈ F, Wide cl → (∃ q ∈ cl, q ∈ c) ∨
    ∃ l ∈ cl, ∃ k ∈ cl, l ≠ k ∧ l.natAbs ∉ c.map Int.natAbs ∧ k.natAbs ∉ c.map Int.natAbs

/-- The trail after a successful propagation. -/
theorem Propagator.Paired.settled_trail {P : Propagator} {recorded : List ℕ} (hp : P.Paired F)
    (h : P.Inv F n recorded) (hunsat : P.unsat = false) (hdone : P.trail.length ≤ P.qhead) :
    Settled F n P.trail where
  nodup := h.exact.nodup
  inRange := h.exact.inRange
  closed cl hcl hwide := by
    rcases hp.settled h hunsat hdone hcl hwide with ⟨q, hq, hq1⟩ | ⟨l, hl, k, hk, hne, hl2, hk2⟩
    · exact .inl ⟨q, hq, h.ok.mem_of_true hq1⟩
    · exact .inr ⟨l, hl, k, hk, hne, h.value_eq_two_iff.mp hl2, h.value_eq_two_iff.mp hk2⟩

theorem Settled.idle {P : Propagator} {recorded : List ℕ} (hs : Settled F n P.trail)
    (h : P.Inv F n recorded) {c : Clause} (hc : c ∈ F) (hwide : Wide c) : P.Idle c := by
  rcases hs.closed c hc hwide with ⟨q, hq, hmem⟩ | ⟨l, hl, k, hk, hne, hl2, hk2⟩
  · exact .inl ⟨q, hq, h.exact.value h.ok hmem⟩
  · exact .inr (.inl ⟨l, hl, k, hk, hne, h.value_eq_two_iff.mpr hl2, h.value_eq_two_iff.mpr hk2⟩)

/-- Filling the propagator with literals of new, distinct variables. -/
theorem fill_inv {recorded : List ℕ} (P : Propagator) (c : Cube) (h : P.Inv F n recorded)
    (hnodup : (c.map Int.natAbs).Nodup) (hrange : ∀ l ∈ c, l ≠ 0 ∧ l.natAbs ≤ n)
    (hfree : ∀ l ∈ c, l.natAbs ∉ P.trail.map Int.natAbs) :
    (fill P c).Inv F n recorded ∧ (fill P c).trail = P.trail ++ c ∧
      (fill P c).watches = P.watches := by
  unfold fill
  induction c generalizing P with
  | nil => exact ⟨h, (List.append_nil _).symm, rfl⟩
  | cons l c ih =>
      obtain ⟨hl, hc⟩ := List.nodup_cons.mp hnodup
      obtain ⟨hlr, hcr⟩ := List.forall_mem_cons.mp hrange
      obtain ⟨hlf, hcf⟩ := List.forall_mem_cons.mp hfree
      have hv : P.value l = 2 := h.value_eq_two_iff.mpr hlf
      rw [List.foldl_cons, if_pos (by omega)]
      have hfree' : ∀ k ∈ c, k.natAbs ∉ (P.trail ++ [l]).map Int.natAbs := by
        intro k hk
        rw [List.map_append, List.mem_append, not_or]
        refine ⟨hcf k hk, fun hmem => hl ?_⟩
        rw [← List.mem_singleton.mp hmem]
        exact List.mem_map_of_mem hk
      obtain ⟨hinv, htrail, hwatches⟩ :=
        ih (P.uncheckedEnqueue l) (h.enqueue hlr.1 hlr.2 hv) hc hcr hfree'
      exact ⟨hinv, by rw [htrail]; exact List.append_assoc _ [l] c, hwatches⟩

/-- **The refilled propagator has exactly the literals of a settled cube.** -/
theorem Settled.refill {recorded : List ℕ} {c : Cube} (hs : Settled F n c) (hF : InRange n F)
    (h : s.propagator.Inv F n recorded) (hown : s.propagator.Owned F) :
    (fill s.propagator.restart c).Inv F n [] ∧
      (fill s.propagator.restart c).watches = s.propagator.watches ∧
      (fill s.propagator.restart c).trail = c ∧ (refilled s c).trail = c := by
  obtain ⟨hinv, htrail, hwatches⟩ := fill_inv s.propagator.restart c h.restart.forget hs.nodup
    hs.inRange fun _ _ => List.not_mem_nil
  have htrail : (fill s.propagator.restart c).trail = c := htrail
  have hwatches : (fill s.propagator.restart c).watches = s.propagator.watches := hwatches
  refine ⟨hinv, hwatches, htrail, ?_⟩
  have hown' : (fill s.propagator.restart c).Owned F := by
    intro l ci hci
    rw [Propagator.watchers, hwatches] at hci
    exact hown l ci hci
  have hs' : Settled F n (fill s.propagator.restart c).trail := by rwa [htrail]
  exact (Propagator.propagateLoop_idle hF _ _ hinv hown' fun cl hcl => hs'.idle hinv hcl).trans htrail

/-! ### The loop keeps its cubes settled -/

/-- No `propagate` of `createCubes` moves a watch to a literal that the clause watches already. -/
def expandsApart (cfg : Config) (s : State) : Bool :=
  match s.queue with
  | [] => true
  | cBest :: _ =>
      (fill s.propagator.restart cBest).movesApart &&
        match next cfg cBest with
        | none => true
        | some v =>
            !(fill s.propagator.restart cBest).propagate.1 || (refilled s cBest).unsat ||
              ((posStart (refilled s cBest) v).movesApart && (negStart (refilled s cBest) v).movesApart)

/-- What the loop keeps when the watches move apart. -/
structure State.Reloadable (F : List Clause) (n : ℕ) (s : State) : Prop where
  inv : s.propagator.Inv F n []
  paired : s.propagator.Paired F
  settled : ∀ c ∈ s.queue, Settled F n c

/-- A branch queues a settled cube. -/
theorem branch_settled (hF : InRange n F) {recorded : List ℕ} {l : ℤ}
    (h : (s.propagator.uncheckedEnqueue l).Inv F n recorded) (hpair : s.propagator.Paired F)
    (hunsat : s.propagator.unsat = false)
    (hapart : (s.propagator.uncheckedEnqueue l).movesApart = true)
    (hq : ∀ c ∈ s.queue, Settled F n c) :
    (branch s l).propagator.Inv F n recorded ∧ (branch s l).propagator.Paired F ∧
      ∀ c ∈ (branch s l).queue, Settled F n c := by
  have hinv := h.propagate hF
  have hpair' := Propagator.propagateLoop_paired hF _ _ h (hpair.of_eq rfl) hapart
  rw [branch_propagator]
  refine ⟨hinv, hpair', ?_⟩
  unfold branch
  split
  · rename_i P hP
    have hok : (s.propagator.uncheckedEnqueue l).propagate.1 = true := by rw [hP]
    have hflag := (Propagator.propagate_extends hF h.ok).2 hok
    have hdone := Propagator.propagate_complete hF h.ok hok
    have hsettled := hpair'.settled_trail hinv (hflag.trans hunsat) hdone
    change Settled F n (s.propagator.uncheckedEnqueue l).propagate.2.trail at hsettled
    rw [hP] at hsettled
    intro c hc
    rcases List.mem_cons.mp ((BinaryHeap.push_perm s.queue P.trail).subset hc) with rfl | hc
    · exact hsettled
    · exact hq c hc
  · exact hq

/-- The propagators that the two branches start from. -/
theorem starts_inv (hF : InRange n F) {P : Propagator} (h : P.Inv F n [P.trail.length]) {v : ℕ}
    (hv : v ≠ 0) (hvn : v ≤ n) (hfree : v ∉ P.trail.map Int.natAbs) :
    (posStart P v).Inv F n [P.trail.length] ∧
      ((posStart P v).propagate.2.cancelUntilPos P.trail.length).Inv F n [P.trail.length] ∧
      (negStart P v).Inv F n [P.trail.length] := by
  have hopen : P.value (v : ℤ) = 2 := h.value_eq_two_iff.mpr hfree
  have hpos : (posStart P v).Inv F n [P.trail.length] :=
    h.enqueue (Int.natCast_ne_zero.mpr hv) (by omega) hopen
  have hcut := (hpos.propagate hF).cancel List.mem_cons_self
  rw [List.filter_cons_of_pos (by simp), List.filter_nil] at hcut
  have htrail : ((posStart P v).propagate.2.cancelUntilPos P.trail.length).trail = P.trail := by
    obtain ⟨more, hmore⟩ := (Propagator.propagate_extends hF hpos.ok).1.adds
    show (posStart P v).propagate.2.trail.take P.trail.length = P.trail
    rw [hmore.trail]
    show ((P.trail ++ [(v : ℤ)]) ++ more).take P.trail.length = P.trail
    rw [List.append_assoc, List.take_left]
  refine ⟨hpos, hcut, hcut.enqueue (by omega) (by omega) (hcut.value_eq_two_iff.mpr ?_)⟩
  rwa [htrail, Int.natAbs_neg, Int.natAbs_natCast]

theorem mem_of_mem_pop {queue : List Cube} {c : Cube} (h : c ∈ BinaryHeap.pop heavier queue) :
    c ∈ queue := by
  cases queue with
  | nil => exact h
  | cons top rest => exact List.mem_cons_of_mem top ((BinaryHeap.pop_perm top rest).subset h)

/-- What is reloaded in a state that the loop reaches with its watches apart. -/
theorem State.Reloadable.refill (hF : InRange n F) (h : s.Reloadable F n)
    (hq : s.queue = top :: rest) :
    (fill s.propagator.restart top).Inv F n [] ∧ (fill s.propagator.restart top).Paired F ∧
      (refilled s top).Inv F n [] ∧ (refilled s top).trail = top ∧
      ((fill s.propagator.restart top).propagate.1 = true →
        (refilled s top).unsat = false ∧
          (refilled s top).Inv F n [(refilled s top).trail.length]) := by
  have htop := h.settled top (by rw [hq]; exact List.mem_cons_self)
  obtain ⟨hinv, hwatches, -, htrail⟩ := htop.refill hF h.inv h.paired.own
  have hrefilled := hinv.propagate hF
  refine ⟨hinv, h.paired.of_eq hwatches, hrefilled, htrail, fun hok => ?_⟩
  have hunsat : (refilled s top).unsat = false := by
    refine ((Propagator.propagate_extends hF hinv.ok).2 hok).trans ?_
    exact fill_unsat _ top
  exact ⟨hunsat, hrefilled.record hunsat (Propagator.propagate_complete hF hinv.ok hok)⟩

/-- Both branches keep the pairs and queue settled cubes. -/
theorem split_reloadable (hF : InRange n F) (h : s.propagator.Inv F n [s.propagator.trail.length])
    (hpair : s.propagator.Paired F) (hunsat : s.propagator.unsat = false)
    (hq : ∀ c ∈ s.queue, Settled F n c) {v : ℕ} (hv : v ≠ 0) (hvn : v ≤ n)
    (hfree : v ∉ s.propagator.trail.map Int.natAbs)
    (hposApart : (posStart s.propagator v).movesApart = true)
    (hnegApart : (negStart s.propagator v).movesApart = true) : (split s v).Reloadable F n := by
  obtain ⟨hpos, -, hneg⟩ := starts_inv hF h hv hvn hfree
  obtain ⟨-, hpairpos, hqueuepos⟩ := branch_settled hF hpos hpair hunsat hposApart hq
  rw [negStart, posStart, ← branch_propagator] at hneg hnegApart
  obtain ⟨hinvneg, hpairneg, hqueueneg⟩ :=
    branch_settled (s := between s v) hF hneg (hpairpos.of_eq rfl) rfl hnegApart hqueuepos
  unfold split
  refine ⟨hinvneg.forget, hpairneg, fun c hc => hqueueneg c ?_⟩
  exact mem_of_mem_pop hc

theorem createCubes_reloadable {cfg : Config} (hF : InRange cfg.nbVar cfg.clauses)
    (h : s.Reloadable cfg.clauses cfg.nbVar) (hapart : expandsApart cfg s = true)
    (hq : s.queue = top :: rest) : (createCubes cfg s).Reloadable cfg.clauses cfg.nbVar := by
  obtain ⟨hinv, hpair, hrefilled, htrail, hdone⟩ := h.refill hF hq
  simp only [expandsApart, hq] at hapart
  obtain ⟨hfill, hbranches⟩ := Bool.and_eq_true_iff.mp hapart
  have hpair' : (refilled s top).Paired cfg.clauses :=
    Propagator.propagateLoop_paired hF _ _ hinv hpair hfill
  rcases createCubes_cases cfg hq with ⟨-, heq⟩ | ⟨-, heq⟩ | ⟨v, hnext, hok, hunsat, heq⟩
  · rw [heq]
    exact ⟨hrefilled, hpair', fun c hc => h.settled c (mem_of_mem_pop hc)⟩
  · rw [heq]
    exact ⟨hrefilled, hpair', fun c hc => h.settled c (mem_of_mem_pop hc)⟩
  · rw [heq]
    rw [hnext] at hbranches
    simp only [hok, hunsat, Bool.not_true, Bool.false_or, Bool.and_eq_true] at hbranches
    obtain ⟨hv, hvn, hfree⟩ := next_spec hnext
    rw [← htrail] at hfree
    exact split_reloadable (s := { s with propagator := refilled s top }) hF (hdone hok).2 hpair'
      hunsat h.settled hv hvn hfree hbranches.1 hbranches.2

theorem reloadable_of_reaches {cfg : Config} (hF : InRange cfg.nbVar cfg.clauses)
    (hstart : ∀ c ∈ cfg.clauses, Wide c → Wide (c.take 2))
    (hr : Reaches (State.step cfg) (fun s _ => expandsApart cfg s = true) (init cfg) s) :
    s.Reloadable cfg.clauses cfg.nbVar := by
  refine hr.invariant (State.Reloadable cfg.clauses cfg.nbVar) ?_ fun s _ s' h hapart hs => ?_
  · rw [init, propagate_new]
    refine ⟨Propagator.new_inv hF, Propagator.new_paired hF hstart, fun c hc => ?_⟩
    rw [List.mem_singleton.mp hc]
    refine ⟨List.nodup_nil, fun l hl => absurd hl List.not_mem_nil, fun cl _ hwide => .inr ?_⟩
    obtain ⟨l, hl, k, hk, hne⟩ := hwide
    exact ⟨l, hl, k, hk, hne, List.not_mem_nil, List.not_mem_nil⟩
  · obtain ⟨⟨top, rest, hq⟩, -, rfl⟩ := State.step_cases hs
    exact createCubes_reloadable hF h hapart hq

/-- **Reloading a queued cube reproduces it exactly** in every state that the loop reaches with its
watches apart: the refilled propagator has the literals of the cube, each variable once, the next
variable is unassigned, and the cubes of both branches are on distinct variables. -/
theorem reloads_exactly {cfg : Config} (hF : InRange cfg.nbVar cfg.clauses)
    (hstart : ∀ c ∈ cfg.clauses, Wide c → Wide (c.take 2))
    (hr : Reaches (State.step cfg) (fun s _ => expandsApart cfg s = true) (init cfg) s)
    (hq : s.queue = top :: rest) (hok : (fill s.propagator.restart top).propagate.1 = true) :
    (refilled s top).trail = top ∧ (top.map Int.natAbs).Nodup ∧
      ∀ v, next cfg top = some v → (refilled s top).value v = 2 ∧
        ((posStart (refilled s top) v).propagate.2.trail.map Int.natAbs).Nodup ∧
        ((negStart (refilled s top) v).propagate.2.trail.map Int.natAbs).Nodup := by
  have h := reloadable_of_reaches hF hstart hr
  obtain ⟨-, -, hrefilled, htrail, hdone⟩ := h.refill hF hq
  refine ⟨htrail, (h.settled top (by rw [hq]; exact List.mem_cons_self)).nodup, fun v hnext => ?_⟩
  obtain ⟨hv, hvn, hfree⟩ := next_spec hnext
  rw [← htrail] at hfree
  obtain ⟨hpos, -, hneg⟩ := starts_inv hF (hdone hok).2 hv hvn hfree
  exact ⟨hrefilled.value_eq_two_iff.mpr hfree, (hpos.propagate hF).exact.nodup,
    (hneg.propagate hF).exact.nodup⟩

/-- Three clauses whose watches never move. -/
def threeClauses : Config :=
  { nbVar := 4
    clauses := [[1, 2], [-2, 3], [3, 4, -1]]
    getLevel := levelNone
    numCubes := 8 }

theorem threeClauses_inRange : InRange threeClauses.nbVar threeClauses.clauses := by
  unfold InRange
  decide

theorem reloads_exactly_threeClauses : ∃ s rest,
    Reaches (State.step threeClauses) (fun s _ => expandsApart threeClauses s = true)
      (init threeClauses) s ∧ s.queue = [-2, 1] :: rest ∧ next threeClauses [-2, 1] = some 3 ∧
    (refilled s [-2, 1]).trail = [-2, 1] ∧
    ((posStart (refilled s [-2, 1]) 3).propagate.2.trail.map Int.natAbs).Nodup ∧
    ((negStart (refilled s [-2, 1]) 3).propagate.2.trail.map Int.natAbs).Nodup := by
  have hrun : (exec (fun s a => if expandsApart threeClauses s then State.step threeClauses s a else none)
      (init threeClauses) [(), ()]).map
      (fun s => (s.queue.head?, (fill s.propagator.restart [-2, 1]).propagate.1)) =
      some (some [-2, 1], true) := by decide +kernel
  obtain ⟨s, hexec, hs⟩ := Option.map_eq_some_iff.mp hrun
  obtain ⟨hhead, hok⟩ := Prod.mk.inj hs
  obtain ⟨rest, hq⟩ := List.head?_eq_some_iff.mp hhead
  have hreach : Reaches (State.step threeClauses) (fun s _ => expandsApart threeClauses s = true)
      (init threeClauses) s := .of_exec_checked (fun _ _ h => h) hexec
  have hnext : next threeClauses [-2, 1] = some 3 := by decide +kernel
  obtain ⟨htrail, -, hbranches⟩ :=
    reloads_exactly threeClauses_inRange (by unfold Wide; decide) hreach hq hok
  obtain ⟨-, hpos, hneg⟩ := hbranches 3 hnext
  exact ⟨s, rest, hreach, hq, hnext, htrail, hpos, hneg⟩

/-- **A cube that is reloaded with one literal more.**  The heuristic branches on it, and the cubes of
the two branches contain it twice and with both signs. -/
theorem reloads_more : ∃ s rest, Reachable (State.step sevenClauses) (init sevenClauses) s ∧
    s.queue = [3, -4, -5] :: rest ∧
    (fill s.propagator.restart [3, -4, -5]).propagate.1 = true ∧
    (refilled s [3, -4, -5]).trail = [3, -4, -5, 1] ∧ next sevenClauses [3, -4, -5] = some 1 ∧
    (refilled s [3, -4, -5]).value 1 = 1 ∧
    (posStart (refilled s [3, -4, -5]) 1).propagate.2.trail = [3, -4, -5, 1, 1] ∧
    (negStart (refilled s [3, -4, -5]) 1).propagate.2.trail = [3, -4, -5, 1, -1] := by
  have hhead : (loop sevenClauses 8 (init sevenClauses)).queue.head? = some [3, -4, -5] := by
    decide +kernel
  obtain ⟨rest, hq⟩ := List.head?_eq_some_iff.mp hhead
  exact ⟨_, rest, loop_reachable 8 _, hq, by decide +kernel, by decide +kernel, by decide +kernel,
    by decide +kernel, by decide +kernel, by decide +kernel⟩

end HydraSAT.CubeGenCli
