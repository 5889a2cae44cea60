import HydraSAT.CubeGenCli.Propagator
import HydraSAT.Lib.Transition

/-!
# The watch lists of cube_gen

`propagateLit` moves a watch to the first unassigned literal of the clause, also if that is the other
watch, so that propagation misses units.  It misses no conflict: every clause keeps a watch, and a
watch on a false literal that has been processed is on a clause with a true literal, which was true
before any later backtracking point.

* `Session.step`: the operations of the propagator in any order, with the trail lengths that one can
  go back to;
* `Propagator.Inv`: the invariant on watches, trail positions and the queue head;
* `Session.propagates`: what `propagate` appends is implied, what it refutes has no model, and what it
  accepts falsifies no clause;
* `Propagator.accepts_falsified`: this needs a conflict to be undone before the next `propagate`, and
  lengths that are still lengths of the trail they were recorded on.
-/

namespace HydraSAT.CubeGenCli

open HydraSAT.Lib

theorem litIdx_inj {l k : ℤ} (h : litIdx l = litIdx k) : l = k := by
  unfold litIdx at h
  split at h <;> split at h <;> omega

theorem litIdx_lt {n : ℕ} {l : ℤ} (h : l.natAbs ≤ n) : litIdx l < 2 * (n + 1) := by
  unfold litIdx
  split <;> omega

theorem getD_watch_self {watches : List (List ℕ)} {l : ℤ} (h : litIdx l < watches.length) (ci : ℕ) :
    (watch watches l ci).getD (litIdx l) [] = watches.getD (litIdx l) [] ++ [ci] := by
  simp [watch, h]

theorem getD_watch_ne {watches : List (List ℕ)} {l k : ℤ} (h : k ≠ l) (ci : ℕ) :
    (watch watches l ci).getD (litIdx k) [] = watches.getD (litIdx k) [] := by
  have hne : litIdx l ≠ litIdx k := fun heq => h (litIdx_inj heq).symm
  simp [watch, List.getD_eq_getElem?_getD, List.getElem?_set_ne hne]

/-- A watch that is put on a literal is the only one that is added. -/
theorem mem_watch {watches : List (List ℕ)} {l k : ℤ} {ci cj : ℕ} (h : litIdx l < watches.length) :
    cj ∈ (watch watches l ci).getD (litIdx k) [] ↔
      cj ∈ watches.getD (litIdx k) [] ∨ (k = l ∧ cj = ci) := by
  by_cases hk : k = l
  · rw [hk, getD_watch_self h, List.mem_append, List.mem_singleton]
    simp
  · rw [getD_watch_ne hk]
    simp [hk]

/-- The watches on some literals of clause `ci`. -/
theorem mem_foldl_watch {watches : List (List ℕ)} {lits : List ℤ} {k : ℤ} {ci cj : ℕ}
    (h : ∀ l ∈ lits, litIdx l < watches.length) :
    cj ∈ (lits.foldl (fun ws l => watch ws l ci) watches).getD (litIdx k) [] ↔
      cj ∈ watches.getD (litIdx k) [] ∨ (k ∈ lits ∧ cj = ci) := by
  induction lits generalizing watches with
  | nil => simp
  | cons l lits ih =>
      obtain ⟨hl, hlits⟩ := List.forall_mem_cons.mp h
      have hlen : (watch watches l ci).length = watches.length := List.length_set
      rw [List.foldl_cons, ih (by rwa [hlen]), mem_watch hl, List.mem_cons]
      tauto

theorem length_foldl_watch (watches : List (List ℕ)) (lits : List ℤ) (ci : ℕ) :
    (lits.foldl (fun ws l => watch ws l ci) watches).length = watches.length := by
  induction lits generalizing watches with
  | nil => rfl
  | cons l lits ih => exact (ih _).trans List.length_set

theorem buildWatches_cons (watches : List (List ℕ)) (c : Clause) (cs : List Clause) (ci : ℕ) :
    buildWatches watches (c :: cs) ci =
      buildWatches ((c.take 2).foldl (fun ws l => watch ws l ci) watches) cs (ci + 1) := by
  match c with
  | [] => rfl
  | [_] => rfl
  | _ :: _ :: _ => rfl

theorem length_buildWatches (watches : List (List ℕ)) (cs : List Clause) (ci : ℕ) :
    (buildWatches watches cs ci).length = watches.length := by
  induction cs generalizing watches ci with
  | nil => rfl
  | cons c cs ih => rw [buildWatches_cons, ih, length_foldl_watch]

/-- `buildWatches` makes every clause watch its first two literals, and nothing else. -/
theorem mem_buildWatches {watches : List (List ℕ)} {cs : List Clause} {ci cj : ℕ} {k : ℤ}
    (hlen : ∀ c ∈ cs, ∀ l ∈ c, litIdx l < watches.length) :
    cj ∈ (buildWatches watches cs ci).getD (litIdx k) [] ↔
      cj ∈ watches.getD (litIdx k) [] ∨ ∃ j c, cs[j]? = some c ∧ k ∈ c.take 2 ∧ cj = ci + j := by
  induction cs generalizing watches ci with
  | nil => exact (or_iff_left fun ⟨j, c, hj, _⟩ => by cases hj).symm
  | cons c cs ih =>
      obtain ⟨hc, hcs⟩ := List.forall_mem_cons.mp hlen
      rw [buildWatches_cons, ih (by rwa [length_foldl_watch]),
        mem_foldl_watch fun l hl => hc l (List.mem_of_mem_take hl), or_assoc]
      refine or_congr_right ⟨?_, ?_⟩
      · rintro (⟨hk, rfl⟩ | ⟨j, d, hj, hk, rfl⟩)
        · exact ⟨0, c, rfl, hk, rfl⟩
        · exact ⟨j + 1, d, hj, hk, by omega⟩
      · rintro ⟨j, d, hj, hk, rfl⟩
        cases j with
        | zero =>
            obtain rfl := Option.some.inj hj
            exact .inl ⟨hk, rfl⟩
        | succ j => exact .inr ⟨j, d, hj, hk, by omega⟩

namespace Propagator

variable {F : List Clause} {n : ℕ} {P Q : Propagator} {l : ℤ}

/-- The clauses that watch a literal. -/
def watchers (P : Propagator) (l : ℤ) : List ℕ := P.watches.getD (litIdx l) []

/-! ### The trail -/

/-- The trail assigns each of its variables once. -/
structure Exact (n : ℕ) (P : Propagator) : Prop where
  nodup : (P.trail.map Int.natAbs).Nodup
  set : ∀ l ∈ P.trail, P.assigned l.natAbs ≠ 0
  inRange : ∀ l ∈ P.trail, l ≠ 0 ∧ l.natAbs ≤ n

/-- Two literals of the trail on one variable are the same. -/
theorem Exact.eq_of_natAbs (h : P.Exact n) {k : ℤ} (hl : l ∈ P.trail) (hk : k ∈ P.trail)
    (heq : l.natAbs = k.natAbs) : l = k :=
  List.inj_on_of_nodup_map h.nodup hl hk heq

theorem Exact.value (h : P.Exact n) (hok : P.Ok F n) (hl : l ∈ P.trail) : P.value l = 1 := by
  have hset := h.set l hl
  unfold Propagator.value
  rw [if_neg hset]
  refine if_pos ?_
  rcases hok.grounded l.natAbs hset with ⟨h1, hmem⟩ | ⟨h1, hmem⟩
  · have heq := h.eq_of_natAbs hl hmem (Int.natAbs_natCast _).symm
    rw [if_neg (by omega)]
    exact h1
  · have heq := h.eq_of_natAbs hl hmem (by rw [Int.natAbs_neg, Int.natAbs_natCast])
    have hz := (h.inRange l hl).1
    rw [if_pos (by omega)]
    exact h1

theorem value_neg (hz : l ≠ 0) (hv : P.value l = 1) : P.value (-l) = 0 := by
  unfold Propagator.value at hv ⊢
  rw [Int.natAbs_neg]
  by_cases h0 : P.assigned l.natAbs = 0
  · simp [h0] at hv
  · rcases lt_or_gt_of_ne hz with hneg | hpos
    · by_cases h1 : P.assigned l.natAbs = -1
      · simp [h1, le_of_lt hneg]
      · simp [h0, hneg, h1] at hv
    · have hsign : ¬ l < 0 := by omega
      by_cases h1 : P.assigned l.natAbs = 1
      · simp [h1, hpos]
      · simp [h0, hsign, h1] at hv

/-- What is assigned keeps its value when the propagator is extended. -/
theorem Extends.value_eq {more : List ℤ} (h : Extends F P Q more) (hv : P.value l ≠ 2) :
    Q.value l = P.value l := by
  have hkept : Q.assigned l.natAbs = P.assigned l.natAbs :=
    h.assigned_eq fun hzero => hv (value_eq_two.mpr hzero)
  unfold Propagator.value
  rw [hkept]

theorem Exact.extends {more : List ℤ} (h : P.Exact n) (hext : Extends F P Q more)
    (hmore : ∀ l ∈ more, l ≠ 0 ∧ l.natAbs ≤ n) : Q.Exact n where
  nodup := by
    rw [hext.trail]
    exact hext.nodup_append h.nodup h.set
  set := hext.set_trail h.set
  inRange l hl := by
    rw [hext.trail] at hl
    exact (List.mem_append.mp hl).elim (h.inRange l) (hmore l)

/-! ### Scanning a watch list -/

/-- A clause that is passed over has a true literal. -/
theorem scanClause_none {c : Clause} {f : ℕ} {u w : ℤ} (h : P.scanClause c f u w = none) :
    ∃ l ∈ c, P.value l = 1 := by
  induction c generalizing f u w with
  | nil => cases h
  | cons k c ih =>
      rw [scanClause] at h
      split at h
      · exact ⟨k, List.mem_cons_self, ‹_›⟩
      · split at h
        · obtain ⟨l, hl, hv⟩ := ih h
          exact ⟨l, List.mem_cons_of_mem k hl, hv⟩
        · obtain ⟨l, hl, hv⟩ := ih h
          exact ⟨l, List.mem_cons_of_mem k hl, hv⟩

/-- The new watch is the first unassigned literal. -/
theorem scanClause_newW {c : Clause} {f₀ f : ℕ} {u₀ u w₀ w : ℤ}
    (h : P.scanClause c f₀ u₀ w₀ = some (f, u, w)) :
    (0 < f₀ → w = w₀) ∧ (f₀ = 0 → 0 < f → w ∈ c ∧ P.value w = 2) := by
  induction c generalizing f₀ u₀ w₀ with
  | nil =>
      obtain ⟨rfl, hrest⟩ := Prod.mk.inj (Option.some.inj h)
      obtain ⟨-, rfl⟩ := Prod.mk.inj hrest
      exact ⟨fun _ => rfl, fun h0 hlt => absurd hlt (by omega)⟩
  | cons k c ih =>
      rw [scanClause] at h
      split at h
      · cases h
      · split at h
        · rename_i hk2
          obtain ⟨hsame, -⟩ := ih h
          have hw := hsame (Nat.succ_pos f₀)
          constructor
          · intro hlt
            rw [hw, if_neg (by omega)]
          · intro h0 _
            rw [hw, if_pos h0]
            exact ⟨List.mem_cons_self, hk2⟩
        · obtain ⟨hsame, hmem⟩ := ih h
          refine ⟨hsame, fun h0 hlt => ?_⟩
          obtain ⟨hw, hv⟩ := hmem h0 hlt
          exact ⟨List.mem_cons_of_mem k hw, hv⟩

/-- What the scan of a watch list, from `P` with the entries `kept` and `rest`, does to the watches. -/
structure Scanned (F : List Clause) (n : ℕ) (P : Propagator) (kept rest : List ℕ)
    (out : Bool × List ℕ × Propagator) : Prop where
  size : out.2.2.watches.length = P.watches.length
  same : ∀ l, P.value l ≠ 2 → out.2.2.watchers l = P.watchers l
  grows : ∀ l, ∀ ci ∈ P.watchers l, ci ∈ out.2.2.watchers l
  /-- An entry that is left behind is on a clause with a true literal. -/
  settled : out.1 = true → ∀ ci ∈ out.2.1, ci ∈ kept ∨ ∃ q ∈ F.getD ci [], out.2.2.value q = 1
  /-- An entry stays, or moves to an unassigned literal of its clause. -/
  stays : ∀ ci, ci ∈ kept ∨ ci ∈ rest →
    ci ∈ out.2.1 ∨ ∃ l ∈ F.getD ci [], P.value l = 2 ∧ ci ∈ out.2.2.watchers l
  inRange : ∀ l ∈ out.2.2.trail, l ∈ P.trail ∨ (l ≠ 0 ∧ l.natAbs ≤ n)

/-- One entry, then the others. -/
theorem Scanned.cons {kept kept' rest : List ℕ} {ci : ℕ} {out : Bool × List ℕ × Propagator}
    (h : Scanned F n Q kept' rest out) (hsize : Q.watches.length = P.watches.length)
    (hvalue : ∀ l, P.value l ≠ 2 → Q.value l = P.value l)
    (hsame : ∀ l, P.value l ≠ 2 → Q.watchers l = P.watchers l)
    (hgrows : ∀ l, ∀ cj ∈ P.watchers l, cj ∈ Q.watchers l)
    (hsettled : ∀ cj ∈ kept', cj ∈ kept ∨ ∃ q ∈ F.getD cj [], out.2.2.value q = 1)
    (hkept : ∀ cj ∈ kept, cj ∈ kept')
    (hci : ci ∈ kept' ∨ ∃ l ∈ F.getD ci [], P.value l = 2 ∧ ci ∈ Q.watchers l)
    (hrange : ∀ l ∈ Q.trail, l ∈ P.trail ∨ (l ≠ 0 ∧ l.natAbs ≤ n)) :
    Scanned F n P kept (ci :: rest) out where
  size := h.size.trans hsize
  same l hl := by
    rw [h.same l (by rw [hvalue l hl]; exact hl), hsame l hl]
  grows l cj hcj := h.grows l cj (hgrows l cj hcj)
  settled hok cj hcj := (h.settled hok cj hcj).elim (hsettled cj) .inr
  stays cj hcj := by
    have hlater : cj ∈ kept' ∨ cj ∈ rest →
        cj ∈ out.2.1 ∨ ∃ l ∈ F.getD cj [], P.value l = 2 ∧ cj ∈ out.2.2.watchers l := by
      intro hcj
      refine (h.stays cj hcj).imp id fun ⟨l, hl, hv, hw⟩ => ⟨l, hl, ?_, hw⟩
      by_contra hne
      exact hne ((hvalue l hne).symm.trans hv)
    rcases hcj with hcj | hcj
    · exact hlater (.inl (hkept cj hcj))
    · rcases List.mem_cons.mp hcj with rfl | hcj
      · rcases hci with hci | ⟨l, hl, hv, hw⟩
        · exact hlater (.inl hci)
        · exact .inr ⟨l, hl, hv, h.grows l _ hw⟩
      · exact hlater (.inr hcj)
  inRange l hl := (h.inRange l hl).elim (hrange l) .inr

/-- An entry that stays in the list, on a clause that the scan leaves with a true literal. -/
theorem Scanned.keep {kept rest : List ℕ} {ci : ℕ} {out : Bool × List ℕ × Propagator}
    (h : Scanned F n Q (kept ++ [ci]) rest out) (hwatches : Q.watches = P.watches)
    (hvalue : ∀ l, P.value l ≠ 2 → Q.value l = P.value l)
    (htrue : ∃ q ∈ F.getD ci [], out.2.2.value q = 1)
    (hrange : ∀ l ∈ Q.trail, l ∈ P.trail ∨ (l ≠ 0 ∧ l.natAbs ≤ n)) :
    Scanned F n P kept (ci :: rest) out := by
  have hwatchers : ∀ l, Q.watchers l = P.watchers l := fun l => by rw [watchers, watchers, hwatches]
  refine h.cons (congrArg List.length hwatches) hvalue (fun l _ => hwatchers l)
    (fun l cj hcj => by rwa [hwatchers l]) (fun cj hcj => ?_)
    (fun cj hcj => List.mem_append_left _ hcj)
    (.inl (List.mem_append_right _ List.mem_cons_self)) hrange
  refine (List.mem_append.mp hcj).imp id fun hcj => ?_
  rwa [List.mem_singleton.mp hcj]

/-- An entry that moves to the list of an unassigned literal of its clause. -/
theorem Scanned.move {kept rest : List ℕ} {ci : ℕ} {w : ℤ} {out : Bool × List ℕ × Propagator}
    (h : Scanned F n { P with watches := watch P.watches w ci } kept rest out)
    (hw : w ∈ F.getD ci []) (hopen : P.value w = 2) (hin : litIdx w < P.watches.length) :
    Scanned F n P kept (ci :: rest) out := by
  have hother : ∀ k, k ≠ w →
      watchers { P with watches := watch P.watches w ci } k = P.watchers k :=
    fun k hk => getD_watch_ne hk ci
  have hself : watchers { P with watches := watch P.watches w ci } w = P.watchers w ++ [ci] :=
    getD_watch_self hin ci
  refine h.cons List.length_set (fun _ _ => rfl) (fun k hk => hother k fun heq => hk (heq ▸ hopen)) ?_
    (fun cj hcj => .inl hcj) (fun _ hcj => hcj) (.inr ⟨w, hw, hopen, ?_⟩) fun _ hl => .inl hl
  · intro k cj hcj
    by_cases hk : k = w
    · rw [hk] at hcj ⊢
      rw [hself]
      exact List.mem_append_left _ hcj
    · rwa [hother k hk]
  · rw [hself]
    exact List.mem_append_right _ List.mem_cons_self

theorem scanWatches_scanned (hF : InRange n F) (P : Propagator) (kept rest : List ℕ) (h : P.Ok F n)
    (hsize : P.watches.length = 2 * (n + 1)) (hkept : ∀ ci ∈ kept, ci < F.length)
    (hrest : ∀ ci ∈ rest, ci < F.length) : Scanned F n P kept rest (scanWatches P kept rest) := by
  induction rest generalizing P kept with
  | nil =>
      exact ⟨rfl, fun _ _ => rfl, fun _ _ hci => hci, fun _ _ hci => .inl hci,
        fun _ hci => .inl (hci.resolve_right List.not_mem_nil), fun _ hl => .inl hl⟩
  | cons ci rest ih =>
      obtain ⟨hci, hrest⟩ := List.forall_mem_cons.mp hrest
      have hkept' : ∀ cj ∈ kept ++ [ci], cj < F.length := fun cj hcj =>
        (List.mem_append.mp hcj).elim (hkept cj) fun hcj => by rwa [List.mem_singleton.mp hcj]
      have hclause : P.clauses.getD ci [] = F.getD ci [] := by rw [h.clauses]
      have hmem : F.getD ci [] ∈ F := by
        rw [List.getD_eq_getElem _ _ hci]
        exact List.getElem_mem hci
      rw [scanWatches, hclause]
      split
      · -- a true literal: the entry stays
        rename_i hscan
        obtain ⟨q, hq, hv⟩ := scanClause_none hscan
        obtain ⟨hstep, -, -, -⟩ := scanWatches_step hF P (kept ++ [ci]) rest h hkept' hrest
        obtain ⟨more, hmore⟩ := hstep.adds
        have hstill := (hmore.value_eq (l := q) (by rw [hv]; decide)).trans hv
        exact (ih P (kept ++ [ci]) h hsize hkept' hrest).keep rfl (fun _ _ => rfl) ⟨q, hq, hstill⟩
          fun _ hl => .inl hl
      · -- all literals false: the rest of the list stays
        refine ⟨rfl, fun _ _ => rfl, fun _ _ hcj => hcj, fun hok => Bool.noConfusion hok, ?_,
          fun _ hl => .inl hl⟩
        intro cj hcj
        exact .inl (List.mem_append.mpr hcj)
      · -- a unit: it is enqueued and the entry stays
        rename_i unit w hscan
        obtain ⟨humem, hu2⟩ := (scanClause_spec hscan).2.2.2.2 Nat.one_pos
        rw [if_pos hu2]
        have hrange := hF _ hmem unit humem
        have hlt : unit.natAbs < P.assign.length := by rw [h.size]; omega
        have hok := h.enqueue hrange.2
        have hone : Extends F P (P.uncheckedEnqueue unit) [unit] :=
          .enqueue hlt hu2 fun a ha ht => h.unit hF hmem hscan ha ht
        obtain ⟨hstep, -, -, -⟩ :=
          scanWatches_step hF (P.uncheckedEnqueue unit) (kept ++ [ci]) rest hok hkept' hrest
        obtain ⟨more, hmore⟩ := hstep.adds
        have htrue := value_enqueue_self hlt
        have hstill := (hmore.value_eq (l := unit) (by rw [htrue]; decide)).trans htrue
        refine (ih _ (kept ++ [ci]) hok hsize hkept' hrest).keep rfl (fun _ hv => hone.value_eq hv)
          ⟨unit, humem, hstill⟩ fun k hk => ?_
        refine (List.mem_append.mp hk).imp id fun hk => ?_
        rw [List.mem_singleton.mp hk]
        exact hrange
      · -- two or more open literals: the entry moves to the first of them
        rename_i f unit newW hscan
        obtain ⟨hwmem, hw2⟩ := (scanClause_newW hscan).2 rfl (Nat.succ_pos _)
        have hrange := hF _ hmem newW hwmem
        have hlen : (watch P.watches newW ci).length = P.watches.length := List.length_set
        have hin : litIdx newW < P.watches.length := by
          rw [hsize]
          exact litIdx_lt hrange.2
        have hok : Ok F n { P with watches := watch P.watches newW ci } :=
          h.of_eq rfl rfl rfl (NamesClauses.watch h.watched hci newW)
        exact (ih _ kept hok (hlen.trans hsize) hkept hrest).move hwmem hw2 hin

/-! ### The invariant -/

/-- The false watches of the first `h` literals of the trail are on clauses that one of its first `b`
literals makes true. -/
def Supported (F : List Clause) (P : Propagator) (h b : ℕ) : Prop :=
  ∀ p ∈ P.trail.take h, ∀ ci ∈ P.watchers (-p), ∃ q ∈ F.getD ci [], q ∈ P.trail.take b

/-- **The invariant**, where `recorded` are the trail lengths that one can go back to. -/
structure Inv (F : List Clause) (n : ℕ) (recorded : List ℕ) (P : Propagator) : Prop where
  ok : P.Ok F n
  exact : P.Exact n
  size : P.watches.length = 2 * (n + 1)
  watched : ∀ ci < F.length, F.getD ci [] ≠ [] → ∃ l ∈ F.getD ci [], ci ∈ P.watchers l
  head : P.qhead ≤ P.trail.length
  current : P.unsat = false → P.Supported F P.qhead P.trail.length
  recorded : ∀ r ∈ recorded, r ≤ P.qhead ∧ P.Supported F r r

/-- **What has been propagated falsifies no clause.** -/
theorem Inv.no_conflict {recorded : List ℕ} (h : P.Inv F n recorded) (hunsat : P.unsat = false)
    (hdone : P.trail.length ≤ P.qhead) {c : Clause} (hc : c ∈ F) (hne : c ≠ []) :
    ∃ l ∈ c, P.value l ≠ 0 := by
  obtain ⟨ci, hci, rfl⟩ := List.mem_iff_getElem.mp hc
  have hget : F.getD ci [] = F[ci] := List.getD_eq_getElem _ _ hci
  rw [← hget] at hne ⊢
  obtain ⟨l, hl, hw⟩ := h.watched ci hci hne
  by_cases hv : P.value l = 0
  · -- the watch is false, and its negation has been processed
    have hneg := h.ok.mem_of_false hv
    have hproc : -l ∈ P.trail.take P.qhead := by rwa [List.take_of_length_le hdone]
    obtain ⟨q, hq, htrail⟩ := h.current hunsat _ hproc ci (by rwa [neg_neg])
    refine ⟨q, hq, ?_⟩
    rw [h.exact.value h.ok (List.mem_of_mem_take htrail)]
    decide
  · exact ⟨l, hl, hv⟩

theorem Supported.congr {Q : Propagator} {h b : ℕ} (hs : P.Supported F h b)
    (hh : Q.trail.take h = P.trail.take h) (hb : ∀ q ∈ P.trail.take b, q ∈ Q.trail.take b)
    (hw : ∀ p ∈ P.trail.take h, Q.watchers (-p) = P.watchers (-p)) : Q.Supported F h b := by
  intro p hp ci hci
  rw [hh] at hp
  rw [hw p hp] at hci
  obtain ⟨q, hq, hmem⟩ := hs p hp ci hci
  exact ⟨q, hq, hb q hmem⟩

/-! ### One iteration -/

/-- What `propagateLit` of the literal `p` does to the watches. -/
structure Processed (F : List Clause) (n : ℕ) (P : Propagator) (p : ℤ) (out : Bool × Propagator) :
    Prop where
  size : out.2.watches.length = P.watches.length
  same : ∀ l, P.value l ≠ 2 → l ≠ -p → out.2.watchers l = P.watchers l
  watched : ∀ ci, (∃ l ∈ F.getD ci [], ci ∈ P.watchers l) → ∃ l ∈ F.getD ci [], ci ∈ out.2.watchers l
  settled : out.1 = true → ∀ ci ∈ out.2.watchers (-p), ∃ q ∈ F.getD ci [], out.2.value q = 1
  inRange : ∀ l ∈ out.2.trail, l ∈ P.trail ∨ (l ≠ 0 ∧ l.natAbs ≤ n)

/-- The scanned list is what the scan leaves of it. -/
theorem watchers_propagateLit_self {p : ℤ}
    (hlt : litIdx (-p) < (scanWatches P [] (P.watchers (-p))).2.2.watches.length) :
    (propagateLit P p).2.watchers (-p) = (scanWatches P [] (P.watchers (-p))).2.1 := by
  show ((scanWatches P [] (P.watchers (-p))).2.2.watches.set _ _).getD _ _ = _
  rw [List.getD_eq_getElem?_getD, List.getElem?_set_self hlt]
  rfl

theorem watchers_propagateLit_of_ne {p : ℤ} (hl : l ≠ -p) :
    (propagateLit P p).2.watchers l = (scanWatches P [] (P.watchers (-p))).2.2.watchers l := by
  have hidx : litIdx (-p) ≠ litIdx l := fun heq => hl (litIdx_inj heq).symm
  show ((scanWatches P [] (P.watchers (-p))).2.2.watches.set _ _).getD _ _ = _
  simp [watchers, List.getD_eq_getElem?_getD, List.getElem?_set_ne hidx]

theorem propagateLit_processed (hF : InRange n F) (h : P.Ok F n)
    (hsize : P.watches.length = 2 * (n + 1)) {p : ℤ} (hp : p.natAbs ≤ n) (hv : P.value (-p) ≠ 2) :
    Processed F n P p (propagateLit P p) := by
  have hs := scanWatches_scanned hF P [] (P.watchers (-p)) h hsize
    (fun _ hci => absurd hci List.not_mem_nil) (NamesClauses.getD h.watched _)
  have hlt : litIdx (-p) < (scanWatches P [] (P.watchers (-p))).2.2.watches.length := by
    rw [hs.size, hsize]
    exact litIdx_lt (by rwa [Int.natAbs_neg])
  have hself := watchers_propagateLit_self hlt
  refine ⟨List.length_set.trans hs.size, ?_, ?_, ?_, hs.inRange⟩
  · intro l hl hlp
    rw [watchers_propagateLit_of_ne hlp, hs.same l hl]
  · intro ci ⟨l, hl, hw⟩
    by_cases hlp : l = -p
    · rw [hlp] at hl hw
      rcases hs.stays ci (.inr hw) with hmem | ⟨k, hk, hk2, hmem⟩
      · exact ⟨-p, hl, by rwa [hself]⟩
      · have hkp : k ≠ -p := fun heq => hv (heq ▸ hk2)
        exact ⟨k, hk, by rwa [watchers_propagateLit_of_ne hkp]⟩
    · refine ⟨l, hl, ?_⟩
      rw [watchers_propagateLit_of_ne hlp]
      exact hs.grows l ci hw
  · intro hok ci hci
    rw [hself] at hci
    exact (hs.settled hok ci hci).resolve_left List.not_mem_nil

/-- The negations of the trail literals are false. -/
theorem Inv.value_negated {recorded : List ℕ} (h : P.Inv F n recorded) {k : ℤ} (hk : k ∈ P.trail) :
    P.value (-k) = 0 :=
  value_neg (h.exact.inRange k hk).1 (h.exact.value h.ok hk)

/-- The literal at the queue head does not stand before it too. -/
theorem Inv.head_notMem {recorded : List ℕ} (h : P.Inv F n recorded) {p : ℤ}
    (hp : P.trail[P.qhead]? = some p) : p ∉ P.trail.take P.qhead := by
  intro hmem
  obtain ⟨hlt, hpget⟩ := List.getElem?_eq_some_iff.mp hp
  have hnodup : P.trail.Nodup := .of_map _ h.exact.nodup
  obtain ⟨i, hi, hget⟩ := List.mem_take_iff_getElem.mp hmem
  have hlti : i < P.trail.length := by omega
  have hsame : P.trail[i] = P.trail[P.qhead] := by rw [hget, hpget]
  have hidx : i = P.qhead := hnodup.getElem_inj_iff.mp hsame
  omega

/-- An iteration processes the literal at the queue head. -/
theorem Inv.processed {recorded : List ℕ} (h : P.Inv F n recorded) (hF : InRange n F) {p : ℤ}
    (hp : P.trail[P.qhead]? = some p) :
    Processed F n { P with qhead := P.qhead + 1 } p
      (propagateLit { P with qhead := P.qhead + 1 } p) := by
  have hok : Ok F n { P with qhead := P.qhead + 1 } := h.ok.of_eq rfl rfl rfl h.ok.watched
  have hpmem : p ∈ P.trail := List.mem_of_getElem? hp
  refine propagateLit_processed hF hok h.size (h.exact.inRange p hpmem).2 fun h2 => ?_
  have h0 : Propagator.value { P with qhead := P.qhead + 1 } (-p) = 0 := h.value_negated hpmem
  omega

/-- The watchers of the literals before the queue head are not touched. -/
theorem Inv.watchers_eq {recorded : List ℕ} (h : P.Inv F n recorded) (hF : InRange n F) {p k : ℤ}
    (hp : P.trail[P.qhead]? = some p) (hk : k ∈ P.trail.take P.qhead) :
    (propagateLit { P with qhead := P.qhead + 1 } p).2.watchers (-k) = P.watchers (-k) := by
  refine (h.processed hF hp).same (-k) (fun h2 => ?_) fun heq => ?_
  · have h0 : Propagator.value { P with qhead := P.qhead + 1 } (-k) = 0 :=
      h.value_negated (List.mem_of_mem_take hk)
    omega
  · exact h.head_notMem hp (neg_injective heq ▸ hk)

/-- The invariant after an iteration, up to the queue head and the flag. -/
theorem Inv.iteration {recorded : List ℕ} (h : P.Inv F n recorded) (hF : InRange n F) {p : ℤ}
    (hp : P.trail[P.qhead]? = some p) {ok : Bool}
    (hQ : propagateLit { P with qhead := P.qhead + 1 } p = (ok, Q)) (u : Bool)
    (hu : u = false → ok = true ∧ P.unsat = false) :
    Inv F n recorded { Q with unsat := u } := by
  have hok : Ok F n { P with qhead := P.qhead + 1 } := h.ok.of_eq rfl rfl rfl h.ok.watched
  have hlt : P.qhead < P.trail.length := (List.getElem?_eq_some_iff.mp hp).1
  have hproc := h.processed hF hp
  rw [hQ] at hproc
  have hstep := iteration_step hF h.ok p
  have hq : Q.qhead = P.qhead + 1 := by
    have hsame := (propagateLit_step hF hok p).2.1
    rwa [hQ] at hsame
  rw [hQ] at hstep
  obtain ⟨more, hmore⟩ := hstep.adds
  have htrail := hmore.trail
  have hlen : Q.trail.length = P.trail.length + more.length := by rw [htrail, List.length_append]
  have hexact : Q.Exact n := by
    refine h.exact.extends hmore fun l hl => ?_
    refine (hproc.inRange l (htrail ▸ List.mem_append_right _ hl)).resolve_left fun hmem => ?_
    exact h.exact.set l hmem (hmore.fresh l hl)
  have hsame : ∀ k ∈ P.trail.take P.qhead, Q.watchers (-k) = P.watchers (-k) := fun k hk => by
    have hkeep := h.watchers_eq hF hp hk
    rwa [hQ] at hkeep
  have hpre : ∀ r ≤ P.trail.length, Q.trail.take r = P.trail.take r := fun r hr => by
    rw [htrail, List.take_append_of_le_length hr]
  refine ⟨hstep.stays.of_eq rfl rfl rfl hstep.stays.watched, ⟨hexact.nodup, hexact.set, hexact.inRange⟩,
    hproc.size.trans h.size, fun ci hci hne => hproc.watched ci (h.watched ci hci hne), ?_, ?_, ?_⟩
  · show Q.qhead ≤ Q.trail.length
    omega
  · intro hunsat k hk ci hci
    obtain ⟨hokt, hflag⟩ := hu hunsat
    show ∃ q ∈ F.getD ci [], q ∈ Q.trail.take Q.trail.length
    rw [List.take_length]
    change k ∈ Q.trail.take Q.qhead at hk
    change ci ∈ Q.watchers (-k) at hci
    by_cases hkp : k = p
    · rw [hkp] at hci
      obtain ⟨q, hqc, hv⟩ := hproc.settled hokt ci hci
      exact ⟨q, hqc, hstep.stays.mem_of_true hv⟩
    · have hbefore : k ∈ P.trail.take P.qhead := by
        rw [hq, hpre _ (by omega), List.take_add_one] at hk
        refine (List.mem_append.mp hk).resolve_right fun hlast => hkp ?_
        rw [hp] at hlast
        exact List.mem_singleton.mp hlast
      rw [hsame k hbefore] at hci
      obtain ⟨q, hqc, hmem⟩ := h.current hflag k hbefore ci hci
      rw [List.take_length] at hmem
      exact ⟨q, hqc, htrail ▸ List.mem_append_left _ hmem⟩
  · intro r hr
    obtain ⟨hle, hs⟩ := h.recorded r hr
    have hr := hpre r (by have := h.head; omega)
    refine ⟨by show r ≤ Q.qhead; omega, ?_⟩
    refine Supported.congr (P := P) hs hr (fun q hq => ?_) fun k hk => ?_
    · show q ∈ Q.trail.take r
      rwa [hr]
    · exact hsame k (List.take_subset_take_left _ hle hk)

/-! ### The operations -/

/-- The invariant after an iteration that finds no conflict. -/
theorem Inv.iterate {recorded : List ℕ} (h : P.Inv F n recorded) (hF : InRange n F) {p : ℤ}
    (hp : P.trail[P.qhead]? = some p)
    (hok : (propagateLit { P with qhead := P.qhead + 1 } p).1 = true) :
    (propagateLit { P with qhead := P.qhead + 1 } p).2.Inv F n recorded := by
  have hunsat := (propagateLit_step hF (P := { P with qhead := P.qhead + 1 })
    (h.ok.of_eq rfl rfl rfl h.ok.watched) p).2.2
  exact h.iteration hF hp rfl _ fun hu => ⟨hok, hunsat ▸ hu⟩

theorem propagateLoop_inv (hF : InRange n F) {recorded : List ℕ} (fuel : ℕ) (P : Propagator)
    (h : P.Inv F n recorded) : (propagateLoop fuel P).2.Inv F n recorded := by
  induction fuel generalizing P with
  | zero => exact h
  | succ fuel ih =>
      rw [propagateLoop]
      split
      · exact h
      · rename_i p hp
        have hnext := h.iterate hF hp
        split
        · rename_i Q hQ
          rw [hQ] at hnext
          exact ih Q (hnext rfl)
        · rename_i Q hQ
          exact h.iteration hF hp hQ true fun hu => Bool.noConfusion hu

/-- In the beginning a clause is watched by its first two literals. -/
theorem mem_watchers_new (hF : InRange n F) {ci : ℕ} :
    ci ∈ (new n F).watchers l ↔ ∃ c, F[ci]? = some c ∧ l ∈ c.take 2 := by
  have hlen : ∀ c ∈ F, ∀ l ∈ c, litIdx l < (List.replicate (2 * (n + 1)) ([] : List ℕ)).length := by
    intro c hc l hl
    rw [List.length_replicate]
    exact litIdx_lt (hF c hc l hl).2
  have hnone : ci ∉ (List.replicate (2 * (n + 1)) ([] : List ℕ)).getD (litIdx l) [] := by
    simp [List.getD_eq_getElem?_getD, List.getElem?_replicate]
    split <;> exact List.not_mem_nil
  refine (mem_buildWatches hlen).trans ((or_iff_right hnone).trans ⟨?_, ?_⟩)
  · rintro ⟨j, c, hj, hl, rfl⟩
    rw [Nat.zero_add]
    exact ⟨c, hj, hl⟩
  · rintro ⟨c, hc, hl⟩
    exact ⟨ci, c, hc, hl, (Nat.zero_add ci).symm⟩

theorem new_inv (hF : InRange n F) : (new n F).Inv F n [] := by
  have hsize : (new n F).watches.length = 2 * (n + 1) :=
    (length_buildWatches _ F 0).trans List.length_replicate
  refine ⟨new_ok n F, ⟨List.nodup_nil, fun l hl => absurd hl List.not_mem_nil,
    fun l hl => absurd hl List.not_mem_nil⟩, hsize, ?_, le_refl 0, ?_,
    fun r hr => absurd hr List.not_mem_nil⟩
  · intro ci hci hne
    rw [List.getD_eq_getElem _ _ hci] at hne ⊢
    obtain ⟨l, c, hc⟩ := List.exists_cons_of_ne_nil hne
    refine ⟨l, hc ▸ List.mem_cons_self, (mem_watchers_new hF).mpr ⟨_, List.getElem?_eq_getElem hci, ?_⟩⟩
    rw [hc]
    exact List.mem_cons_self
  · exact fun _ k hk => absurd (List.mem_of_mem_take hk) List.not_mem_nil

theorem Inv.enqueue {recorded : List ℕ} (h : P.Inv F n recorded) (hz : l ≠ 0) (hl : l.natAbs ≤ n)
    (hv : P.value l = 2) : (P.uncheckedEnqueue l).Inv F n recorded := by
  have hfresh := value_eq_two.mp hv
  have hlt : l.natAbs < P.assign.length := by rw [h.ok.size]; omega
  have hpre : ∀ r ≤ P.trail.length, (P.trail ++ [l]).take r = P.trail.take r := fun r hr =>
    List.take_append_of_le_length hr
  refine ⟨h.ok.enqueue hl, ⟨?_, ?_, ?_⟩, h.size, h.watched, ?_, ?_, ?_⟩
  · show ((P.trail ++ [l]).map Int.natAbs).Nodup
    rw [List.map_append]
    refine h.exact.nodup.append (List.nodup_singleton _) fun v hv hv' => ?_
    obtain ⟨k, hk, rfl⟩ := List.mem_map.mp hv
    exact h.exact.set k hk (List.mem_singleton.mp hv' ▸ hfresh)
  · intro k hk
    refine assigned_enqueue_ne_zero hlt fun hkl => ?_
    refine h.exact.set k ((List.mem_append.mp hk).resolve_right fun hlast => hkl ?_)
    rw [List.mem_singleton.mp hlast]
  · intro k hk
    rcases List.mem_append.mp hk with hk | hk
    · exact h.exact.inRange k hk
    · rw [List.mem_singleton.mp hk]
      exact ⟨hz, hl⟩
  · show P.qhead ≤ (P.trail ++ [l]).length
    rw [List.length_append]
    exact le_trans h.head (Nat.le_add_right _ _)
  · intro hunsat k hk ci hci
    have hk : k ∈ P.trail.take P.qhead := hpre _ h.head ▸ hk
    obtain ⟨q, hq, hmem⟩ := h.current hunsat k hk ci hci
    refine ⟨q, hq, ?_⟩
    show q ∈ (P.trail ++ [l]).take (P.trail ++ [l]).length
    rw [List.take_length]
    exact List.mem_append_left _ (List.mem_of_mem_take hmem)
  · intro r hr
    obtain ⟨hle, hs⟩ := h.recorded r hr
    have hr := hpre r (le_trans hle h.head)
    exact ⟨hle, hs.congr hr (fun q hq => by show q ∈ (P.trail ++ [l]).take r; rwa [hr])
      fun _ _ => rfl⟩

/-- Cutting the trail back to a length that one can go back to. -/
theorem Inv.cut {recorded : List ℕ} (h : P.Inv F n recorded) {pos : ℕ} (hpos : pos ≤ P.qhead)
    (hsup : P.Supported F pos pos) (hok : Q.Ok F n) (htrail : Q.trail = P.trail.take pos)
    (hassigned : ∀ v, v ∉ (P.trail.drop pos).map Int.natAbs → Q.assigned v = P.assigned v)
    (hwatches : Q.watches = P.watches) (hhead : Q.qhead = pos) :
    Q.Inv F n (recorded.filter (· ≤ pos)) := by
  have hwatchers : ∀ k, Q.watchers k = P.watchers k := fun k => by
    rw [watchers, watchers, hwatches]
  have hpre : ∀ r ≤ pos, Q.trail.take r = P.trail.take r := fun r hr => by
    rw [htrail, List.take_take, min_eq_left hr]
  have hlen : Q.trail.length = pos := by
    rw [htrail, List.length_take, min_eq_left (le_trans hpos h.head)]
  have hnodup := h.exact.nodup
  have hsplit : P.trail.take pos ++ P.trail.drop pos = P.trail := List.take_append_drop pos P.trail
  have hkeep : ∀ r ≤ pos, P.Supported F r r → Q.Supported F r r := fun r hr hs =>
    hs.congr (hpre r hr) (fun q hq => by rwa [hpre r hr]) fun k _ => hwatchers (-k)
  rw [← hsplit, List.map_append] at hnodup
  refine ⟨hok, ⟨?_, ?_, ?_⟩, by rw [hwatches, h.size], ?_, by omega, ?_, ?_⟩
  · rw [htrail]
    exact hnodup.of_append_left
  · intro k hk
    rw [htrail] at hk
    rw [hassigned _ fun hmem => (List.nodup_append'.mp hnodup).2.2 (List.mem_map_of_mem hk) hmem]
    exact h.exact.set k (List.mem_of_mem_take hk)
  · intro k hk
    rw [htrail] at hk
    exact h.exact.inRange k (List.mem_of_mem_take hk)
  · intro ci hci hne
    obtain ⟨k, hk, hw⟩ := h.watched ci hci hne
    exact ⟨k, hk, by rwa [hwatchers]⟩
  · intro _
    rw [hhead, hlen]
    exact hkeep pos (le_refl pos) hsup
  · intro r hr
    obtain ⟨hmem, hle⟩ := List.mem_filter.mp hr
    have hle : r ≤ pos := of_decide_eq_true hle
    exact ⟨by omega, hkeep r hle (h.recorded r hmem).2⟩

theorem Inv.cancel {recorded : List ℕ} (h : P.Inv F n recorded) {pos : ℕ} (hpos : pos ∈ recorded) :
    (P.cancelUntilPos pos).Inv F n (recorded.filter (· ≤ pos)) := by
  obtain ⟨hle, hsup⟩ := h.recorded pos hpos
  refine h.cut hle hsup (h.ok.cancel pos) rfl (fun v hv => ?_) rfl (min_eq_right hle)
  show (unassign P.assign (P.trail.drop pos).reverse).getD v 0 = P.assigned v
  rw [unassign_getD, if_neg (by rwa [List.map_reverse, List.mem_reverse])]
  rfl

theorem Inv.restart {recorded : List ℕ} (h : P.Inv F n recorded) :
    P.restart.Inv F n (recorded.filter (· ≤ 0)) := by
  refine h.cut (Nat.zero_le _) (fun k hk => absurd hk List.not_mem_nil) h.ok.restart rfl
    (fun v hv => ?_) rfl rfl
  show (unassign P.assign P.trail).getD v 0 = P.assigned v
  rw [List.drop_zero] at hv
  rw [unassign_getD, if_neg hv]
  rfl

theorem Inv.propagate {recorded : List ℕ} (hF : InRange n F) (h : P.Inv F n recorded) :
    P.propagate.2.Inv F n recorded :=
  propagateLoop_inv hF _ P h

/-- The trail length after a successful propagation is one that one can go back to. -/
theorem Inv.record {recorded : List ℕ} (h : P.Inv F n recorded) (hunsat : P.unsat = false)
    (hdone : P.trail.length ≤ P.qhead) : P.Inv F n (recorded ++ [P.trail.length]) where
  ok := h.ok
  exact := h.exact
  size := h.size
  watched := h.watched
  head := h.head
  current := h.current
  recorded r hr := by
    rcases List.mem_append.mp hr with hr | hr
    · exact h.recorded r hr
    · have hsup := h.current hunsat
      rw [le_antisymm h.head hdone] at hsup
      rw [List.mem_singleton.mp hr]
      exact ⟨hdone, hsup⟩

end Propagator

/-! ### Operations in any order -/

/-- A propagator in use, with the trail lengths that one can go back to. -/
structure Session where
  propagator : Propagator
  recorded : List ℕ

namespace Session

inductive Op
  | restart
  | enqueue (l : ℤ)
  | propagate
  | cancel (pos : ℕ)

def init (nbVar : ℕ) (clauses : List Clause) : Session := ⟨.new nbVar clauses, []⟩

/-- One operation.  A literal is enqueued if its variable is unassigned.  A length is recorded when
`propagate` returns true and the flag is not set, and it stays so until the trail is cut below it. -/
def step (s : Session) : Op → Option Session
  | .restart => some ⟨s.propagator.restart, s.recorded.filter (· ≤ 0)⟩
  | .enqueue l =>
      if l ≠ 0 ∧ l.natAbs < s.propagator.assign.length ∧ s.propagator.value l = 2 then
        some ⟨s.propagator.uncheckedEnqueue l, s.recorded⟩
      else none
  | .propagate =>
      if s.propagator.propagate.1 = true ∧ s.propagator.propagate.2.unsat = false then
        some ⟨s.propagator.propagate.2, s.recorded ++ [s.propagator.propagate.2.trail.length]⟩
      else some ⟨s.propagator.propagate.2, s.recorded⟩
  | .cancel pos =>
      if pos ∈ s.recorded then
        some ⟨s.propagator.cancelUntilPos pos, s.recorded.filter (· ≤ pos)⟩
      else none

variable {F : List Clause} {n : ℕ} {s s' : Session} {op : Op}

theorem inv_step (hF : InRange n F) (h : s.propagator.Inv F n s.recorded) (hs : step s op = some s') :
    s'.propagator.Inv F n s'.recorded := by
  cases op with
  | restart =>
      obtain rfl := Option.some.inj hs
      exact h.restart
  | enqueue l =>
      obtain ⟨⟨hz, hlt, hv⟩, hs⟩ := (Option.ite_none_right_eq_some).mp hs
      obtain rfl := Option.some.inj hs
      rw [h.ok.size] at hlt
      exact h.enqueue hz (by omega) hv
  | propagate =>
      rw [step] at hs
      split at hs
      · rename_i hok
        obtain rfl := Option.some.inj hs
        exact (h.propagate hF).record hok.2 (Propagator.propagate_complete hF h.ok hok.1)
      · obtain rfl := Option.some.inj hs
        exact h.propagate hF
  | cancel pos =>
      obtain ⟨hpos, hs⟩ := (Option.ite_none_right_eq_some).mp hs
      obtain rfl := Option.some.inj hs
      exact h.cancel hpos

theorem inv_reachable (hF : InRange n F) (h : Reachable step (init n F) s) :
    s.propagator.Inv F n s.recorded :=
  h.invariant (fun s => s.propagator.Inv F n s.recorded) (Propagator.new_inv hF)
    fun _ _ _ hinv _ hs => inv_step hF hinv hs

/-- **Propagation is sound and misses no conflict**, after any operations: what it appends follows
from the clauses and the trail, what it refutes has no model, and when it is done without a conflict
no clause has all its literals false, neither then nor after going back. -/
theorem propagates (hF : InRange n F) (hne : ∀ c ∈ F, c ≠ [])
    (h : Reachable step (init n F) s) :
    (∃ more, s.propagator.propagate.2.trail = s.propagator.trail ++ more ∧
      ∀ a, formulaTrue a F = true → cubeTrue a s.propagator.trail = true →
        ∀ l ∈ more, litTrue a l = true) ∧
    (s.propagator.propagate.1 = false → ∀ a, formulaTrue a F = true →
      cubeTrue a s.propagator.trail = false ∧ cubeTrue a s.propagator.propagate.2.trail = false) ∧
    (s.propagator.propagate.1 = true → s.propagator.propagate.2.unsat = false →
      ∀ c ∈ F, ∃ l ∈ c, s.propagator.propagate.2.value l ≠ 0) ∧
    (s.propagator.unsat = false → s.propagator.trail.length ≤ s.propagator.qhead →
      ∀ c ∈ F, ∃ l ∈ c, s.propagator.value l ≠ 0) := by
  have hinv := inv_reachable hF h
  obtain ⟨hstep, -⟩ := Propagator.propagate_extends hF hinv.ok
  obtain ⟨more, hmore⟩ := hstep.adds
  refine ⟨⟨more, hmore.trail, fun a ha ht => cubeTrue_iff.mp (hmore.entailed a ha ht)⟩, ?_, ?_, ?_⟩
  · intro hfalse a ha
    have hend := hstep.conflict hfalse a ha
    exact ⟨by rwa [hmore.cubeTrue_eq ha] at hend, hend⟩
  · intro hok hunsat c hc
    exact (hinv.propagate hF).no_conflict hunsat (Propagator.propagate_complete hF hinv.ok hok) hc
      (hne c hc)
  · intro hunsat hdone c hc
    exact hinv.no_conflict hunsat hdone hc (hne c hc)

/-- Going back to the empty trail after `-2`, and then deciding `1`. -/
theorem propagates_units : ∃ s, Reachable step (init 3 [[1, 2, 3], [-1, 2]]) s ∧
    s.propagator.trail = [1] ∧ s.propagator.propagate.2.trail = [1, 2] ∧
    ∀ c ∈ [[1, 2, 3], [-1, 2]], ∃ l ∈ c, s.propagator.propagate.2.value l ≠ 0 := by
  have hrun : (exec step (init 3 [[1, 2, 3], [-1, 2]])
      [.propagate, .enqueue (-2), .propagate, .cancel 0, .enqueue 1]).map
      (fun s => (s.propagator.trail, s.propagator.propagate.2.trail, s.propagator.propagate.1,
        s.propagator.propagate.2.unsat)) = some ([1], [1, 2], true, false) := by decide +kernel
  obtain ⟨s, hexec, hs⟩ := Option.map_eq_some_iff.mp hrun
  obtain ⟨htrail, hs⟩ := Prod.mk.inj hs
  obtain ⟨htrail', hs⟩ := Prod.mk.inj hs
  obtain ⟨hok, hunsat⟩ := Prod.mk.inj hs
  have hreach : Reachable step (init 3 [[1, 2, 3], [-1, 2]]) s :=
    .of_exec (fun _ _ _ => trivial) hexec
  have hF : InRange 3 [[1, 2, 3], [-1, 2]] := by
    unfold InRange
    decide
  exact ⟨s, hreach, htrail, htrail', (propagates hF (by decide) hreach).2.2.1 hok hunsat⟩

end Session

namespace Propagator

/-- The clause `1` with `-1` enqueued, after the `propagate` that reports the conflict. -/
def refuted : Propagator := ((new 1 [[1]]).uncheckedEnqueue (-1)).propagate.2

/-- Length 1 is recorded with `1` on the trail; then the trail is cut to 0, `-1` is enqueued,
`propagate` reports the conflict, and one goes back to length 1. -/
def stale : Propagator :=
  ((((((new 1 [[1]]).uncheckedEnqueue 1).propagate.2.cancelUntilPos 0).uncheckedEnqueue
    (-1)).propagate.2).cancelUntilPos 1)

/-- **`propagate` accepts a falsified clause** when it is called again after a conflict that has not
been undone, and after going back to a length that has been cut off since it was recorded. -/
theorem accepts_falsified :
    ((new 1 [[1]]).value (-1) = 2 ∧ ((new 1 [[1]]).uncheckedEnqueue (-1)).propagate.1 = false ∧
      refuted.propagate.1 = true ∧ refuted.propagate.2.value 1 = 0) ∧
    (((new 1 [[1]]).propagate.1 = true ∧ ((new 1 [[1]]).uncheckedEnqueue 1).propagate.1 = true ∧
      ((new 1 [[1]]).uncheckedEnqueue 1).propagate.2.trail.length = 1) ∧
      stale.propagate.1 = true ∧ stale.unsat = false ∧ stale.propagate.2.value 1 = 0) := by
  decide +kernel

end Propagator

end HydraSAT.CubeGenCli
