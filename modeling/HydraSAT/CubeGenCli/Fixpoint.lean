import HydraSAT.CubeGenCli.Watches
import HydraSAT.Lib.UnitClosure

/-!
# Missed units

A clause with two watches on different literals cannot become unit behind the back of `propagate`.
The first unassigned literal of a clause may be its other watch, though, and a clause with both
watches on one literal is not looked at when all its other literals become false.

* `Propagator.movesApart`: no move of a `propagate` puts a watch on a literal that the clause watches
  already;
* `Propagator.Paired`: two watches on different literals, which such a `propagate` keeps;
* `Usage.reaches_fixpoint`: then `propagate` misses no unit, and the trail is the unit closure of the
  enqueued literals;
* `Usage.misses_unit`: without it a unit is missed, and the same literals lead to different trails.
-/

namespace HydraSAT.CubeGenCli

open HydraSAT.Lib

/-- The clause has two different literals. -/
def Wide (c : Clause) : Prop := ∃ l ∈ c, ∃ k ∈ c, l ≠ k

namespace Propagator

variable {F : List Clause} {n : ℕ} {P Q : Propagator} {l : ℤ}

/-! ### Moves -/

/-- In the loop of `propagateLit` over a watch list no watch is moved to a literal that the clause
watches already. -/
def scanApart : Propagator → List ℕ → Bool
  | _, [] => true
  | P, ci :: rest =>
      match P.scanClause (P.clauses.getD ci []) 0 0 0 with
      | none => scanApart P rest
      | some (0, _, _) => true
      | some (1, unit, _) => scanApart (if P.value unit = 2 then P.uncheckedEnqueue unit else P) rest
      | some (_ + 2, _, newW) =>
          !(P.watchers newW).contains ci &&
            scanApart { P with watches := watch P.watches newW ci } rest

/-- The same for the loop of `propagate`. -/
def loopApart : ℕ → Propagator → Bool
  | 0, _ => true
  | fuel + 1, P =>
      match P.trail[P.qhead]? with
      | none => true
      | some p =>
          scanApart { P with qhead := P.qhead + 1 } (P.watchers (-p)) &&
            match propagateLit { P with qhead := P.qhead + 1 } p with
            | (true, P) => loopApart fuel P
            | (false, _) => true

/-- `propagate` moves no watch to a literal that the clause watches already. -/
def movesApart (P : Propagator) : Bool := loopApart (P.trail.length + P.assign.length) P

/-- What the scan of a watch list does to the entries, when it moves them apart. -/
structure MovedApart (F : List Clause) (P : Propagator) (kept rest : List ℕ)
    (out : Bool × List ℕ × Propagator) : Prop where
  kept : ∀ ci ∈ kept, ci ∈ out.2.1
  apart : ∀ ci ∈ rest, ci ∈ out.2.1 ∨
    ∃ l ∈ F.getD ci [], P.value l = 2 ∧ ci ∉ P.watchers l ∧ ci ∈ out.2.2.watchers l

/-- One entry, then the others. -/
theorem MovedApart.cons {kept kept' rest : List ℕ} {ci : ℕ} {out : Bool × List ℕ × Propagator}
    (h : MovedApart F Q kept' rest out) (hvalue : ∀ l, P.value l ≠ 2 → Q.value l = P.value l)
    (hgrows : ∀ l, ∀ cj ∈ P.watchers l, cj ∈ Q.watchers l) (hkept : ∀ cj ∈ kept, cj ∈ kept')
    (hci : ci ∈ out.2.1 ∨
      ∃ l ∈ F.getD ci [], P.value l = 2 ∧ ci ∉ P.watchers l ∧ ci ∈ out.2.2.watchers l) :
    MovedApart F P kept (ci :: rest) out where
  kept cj hcj := h.kept cj (hkept cj hcj)
  apart cj hcj := by
    rcases List.mem_cons.mp hcj with rfl | hcj
    · exact hci
    · refine (h.apart cj hcj).imp id fun ⟨l, hl, hv, hnew, hw⟩ => ⟨l, hl, ?_, ?_, hw⟩
      · by_contra hne
        exact hne ((hvalue l hne).symm.trans hv)
      · exact fun hmem => hnew (hgrows l cj hmem)

theorem scanWatches_apart (hF : InRange n F) (P : Propagator) (kept rest : List ℕ) (h : P.Ok F n)
    (hsize : P.watches.length = 2 * (n + 1)) (hkept : ∀ ci ∈ kept, ci < F.length)
    (hrest : ∀ ci ∈ rest, ci < F.length) (hapart : scanApart P rest = true) :
    MovedApart F P kept rest (scanWatches P kept rest) := by
  induction rest generalizing P kept with
  | nil => exact ⟨fun _ hci => hci, fun _ hci => absurd hci List.not_mem_nil⟩
  | cons ci rest ih =>
      obtain ⟨hci, hrest⟩ := List.forall_mem_cons.mp hrest
      have hkept' : ∀ cj ∈ kept ++ [ci], cj < F.length := fun cj hcj =>
        (List.mem_append.mp hcj).elim (hkept cj) fun hcj => by rwa [List.mem_singleton.mp hcj]
      have hclause : P.clauses.getD ci [] = F.getD ci [] := by rw [h.clauses]
      have hmem : F.getD ci [] ∈ F := by
        rw [List.getD_eq_getElem _ _ hci]
        exact List.getElem_mem hci
      have hlast : ci ∈ kept ++ [ci] := List.mem_append_right _ List.mem_cons_self
      rw [scanApart, hclause] at hapart
      rw [scanWatches, hclause]
      split
      · rename_i hscan
        rw [hscan] at hapart
        have hlater := ih P (kept ++ [ci]) h hsize hkept' hrest hapart
        exact hlater.cons (fun _ _ => rfl) (fun _ _ hcj => hcj) (fun _ => List.mem_append_left _)
          (.inl (hlater.kept ci hlast))
      · exact ⟨fun cj hcj => List.mem_append_left _ hcj,
          fun cj hcj => .inl (List.mem_append_right _ hcj)⟩
      · rename_i unit w hscan
        rw [hscan] at hapart
        obtain ⟨humem, hu2⟩ := (scanClause_spec hscan).2.2.2.2 Nat.one_pos
        simp only [if_pos hu2] at hapart ⊢
        have hrange := hF _ hmem unit humem
        have hlt : unit.natAbs < P.assign.length := by rw [h.size]; omega
        have hone : Extends F P (P.uncheckedEnqueue unit) [unit] :=
          .enqueue hlt hu2 fun a ha ht => h.unit hF hmem hscan ha ht
        have hlater := ih _ (kept ++ [ci]) (h.enqueue hrange.2) hsize hkept' hrest hapart
        exact hlater.cons (fun _ hv => hone.value_eq hv) (fun _ _ hcj => hcj)
          (fun _ => List.mem_append_left _) (.inl (hlater.kept ci hlast))
      · rename_i f unit newW hscan
        rw [hscan] at hapart
        obtain ⟨hnew, hapart⟩ := Bool.and_eq_true_iff.mp hapart
        obtain ⟨hwmem, hw2⟩ := (scanClause_newW hscan).2 rfl (Nat.succ_pos _)
        have hlen : (watch P.watches newW ci).length = P.watches.length := List.length_set
        have hin : litIdx newW < P.watches.length := by
          rw [hsize]
          exact litIdx_lt (hF _ hmem newW hwmem).2
        have hok : Ok F n { P with watches := watch P.watches newW ci } :=
          h.of_eq rfl rfl rfl (NamesClauses.watch h.watched hci newW)
        have hgrows : ∀ l, ∀ cj ∈ P.watchers l,
            cj ∈ watchers { P with watches := watch P.watches newW ci } l :=
          fun l cj hcj => (mem_watch hin).mpr (.inl hcj)
        have hlater := ih _ kept hok (hlen.trans hsize) hkept hrest hapart
        have hscanned := scanWatches_scanned hF _ kept rest hok (hlen.trans hsize) hkept hrest
        have hself : ci ∈ watchers { P with watches := watch P.watches newW ci } newW :=
          (mem_watch hin).mpr (.inr ⟨rfl, rfl⟩)
        refine hlater.cons (fun _ _ => rfl) hgrows (fun _ hcj => hcj)
          (.inr ⟨newW, hwmem, hw2, ?_, hscanned.grows newW ci hself⟩)
        simpa using hnew

/-- Where the entries and the literals that a scan leaves behind come from. -/
structure Sourced (F : List Clause) (P : Propagator) (kept rest : List ℕ)
    (out : Bool × List ℕ × Propagator) : Prop where
  owned : ∀ l, ∀ ci ∈ out.2.2.watchers l, ci ∈ P.watchers l ∨ l ∈ F.getD ci []
  entries : ∀ ci ∈ out.2.1, ci ∈ kept ∨ ci ∈ rest
  justified : ∀ D, Justified F D P.trail → Justified F D out.2.2.trail

/-- The other literals of a unit clause are refuted on the trail. -/
theorem Ok.refuted (h : P.Ok F n) {c : Clause} {u w : ℤ}
    (hscan : P.scanClause c 0 0 0 = some (1, u, w)) {k : ℤ} (hk : k ∈ c) (hne : k ≠ u) :
    -k ∈ P.trail := by
  obtain ⟨-, hval, hfree, -, -⟩ := scanClause_spec hscan
  rcases hval k hk with h0 | h2
  · exact h.mem_of_false h0
  · have hlast := (hfree k hk h2).2.resolve_left hne
    omega

theorem scanWatches_sourced (hF : InRange n F) (P : Propagator) (kept rest : List ℕ) (h : P.Ok F n)
    (hsize : P.watches.length = 2 * (n + 1)) (hrest : ∀ ci ∈ rest, ci < F.length) :
    Sourced F P kept rest (scanWatches P kept rest) := by
  induction rest generalizing P kept with
  | nil => exact ⟨fun _ _ => .inl, fun _ => .inl, fun _ => id⟩
  | cons ci rest ih =>
      obtain ⟨hci, hrest⟩ := List.forall_mem_cons.mp hrest
      have hclause : P.clauses.getD ci [] = F.getD ci [] := by rw [h.clauses]
      have hmem : F.getD ci [] ∈ F := by
        rw [List.getD_eq_getElem _ _ hci]
        exact List.getElem_mem hci
      have hstays : ∀ cj, cj ∈ kept ++ [ci] ∨ cj ∈ rest → cj ∈ kept ∨ cj ∈ ci :: rest := by
        intro cj
        rw [List.mem_append, List.mem_singleton, List.mem_cons]
        tauto
      rw [scanWatches, hclause]
      split
      · have hlater := ih P (kept ++ [ci]) h hsize hrest
        exact ⟨hlater.owned, fun cj hcj => hstays cj (hlater.entries cj hcj), hlater.justified⟩
      · exact ⟨fun _ _ => .inl, fun cj hcj => List.mem_append.mp hcj, fun _ => id⟩
      · rename_i unit w hscan
        obtain ⟨humem, hu2⟩ := (scanClause_spec hscan).2.2.2.2 Nat.one_pos
        rw [if_pos hu2]
        have hlater := ih (P.uncheckedEnqueue unit) (kept ++ [ci])
          (h.enqueue (hF _ hmem unit humem).2) hsize hrest
        refine ⟨hlater.owned, fun cj hcj => hstays cj (hlater.entries cj hcj), fun D hD => ?_⟩
        exact hlater.justified D
          (hD.concat (.inr ⟨_, hmem, humem, fun k hk hne => h.refuted hscan hk hne⟩))
      · rename_i f unit newW hscan
        obtain ⟨hwmem, -⟩ := (scanClause_newW hscan).2 rfl (Nat.succ_pos _)
        have hlen : (watch P.watches newW ci).length = P.watches.length := List.length_set
        have hin : litIdx newW < P.watches.length := by
          rw [hsize]
          exact litIdx_lt (hF _ hmem newW hwmem).2
        have hok : Ok F n { P with watches := watch P.watches newW ci } :=
          h.of_eq rfl rfl rfl (NamesClauses.watch h.watched hci newW)
        have hlater := ih _ kept hok (hlen.trans hsize) hrest
        refine ⟨fun l cj hcj => ?_, fun cj hcj => (hlater.entries cj hcj).imp id
          (List.mem_cons_of_mem ci), hlater.justified⟩
        refine (hlater.owned l cj hcj).elim (fun hold => ?_) .inr
        refine ((mem_watch hin).mp hold).imp id ?_
        rintro ⟨rfl, rfl⟩
        exact hwmem

/-! ### Two watches -/

/-- No clause is watched by a literal of another clause. -/
def Owned (F : List Clause) (P : Propagator) : Prop :=
  ∀ l, ∀ ci ∈ P.watchers l, l ∈ F.getD ci []

/-- Every clause with two different literals has watches on two different literals of it. -/
structure Paired (F : List Clause) (P : Propagator) : Prop where
  two : ∀ ci, Wide (F.getD ci []) →
    ∃ l ∈ F.getD ci [], ∃ k ∈ F.getD ci [], l ≠ k ∧ ci ∈ P.watchers l ∧ ci ∈ P.watchers k
  own : P.Owned F

theorem Paired.of_eq (h : P.Paired F) (hwatches : Q.watches = P.watches) : Q.Paired F := by
  have hsame : ∀ l, Q.watchers l = P.watchers l := fun l => by rw [watchers, watchers, hwatches]
  constructor
  · intro ci hwide
    obtain ⟨l, hl, k, hk, hne, hwl, hwk⟩ := h.two ci hwide
    exact ⟨l, hl, k, hk, hne, (hsame l).symm ▸ hwl, (hsame k).symm ▸ hwk⟩
  · intro l ci hci
    exact h.own l ci (hsame l ▸ hci)

/-- A move stays in the clause. -/
theorem Owned.propagateLit (hF : InRange n F) (h : P.Ok F n) (hown : P.Owned F)
    (hsize : P.watches.length = 2 * (n + 1)) {p : ℤ} (hpn : p.natAbs ≤ n) :
    (P.propagateLit p).2.Owned F := by
  have hnames : ∀ ci ∈ P.watchers (-p), ci < F.length := NamesClauses.getD h.watched _
  have hs := scanWatches_scanned hF P [] (P.watchers (-p)) h hsize
    (fun _ hci => absurd hci List.not_mem_nil) hnames
  have hsrc := scanWatches_sourced hF P [] (P.watchers (-p)) h hsize hnames
  have hlt : litIdx (-p) < (scanWatches P [] (P.watchers (-p))).2.2.watches.length := by
    rw [hs.size, hsize]
    exact litIdx_lt (by rwa [Int.natAbs_neg])
  intro l ci hci
  by_cases hlp : l = -p
  · rw [hlp, watchers_propagateLit_self hlt] at hci
    rw [hlp]
    exact hown _ ci ((hsrc.entries ci hci).resolve_left List.not_mem_nil)
  · rw [watchers_propagateLit_of_ne hlp] at hci
    exact (hsrc.owned l ci hci).elim (hown l ci) id

/-- `propagateLit` keeps the pairs when it moves the watches apart. -/
theorem Paired.propagateLit (hF : InRange n F) (h : P.Ok F n) (hp : P.Paired F)
    (hsize : P.watches.length = 2 * (n + 1)) {p : ℤ} (hpn : p.natAbs ≤ n) (hv : P.value (-p) ≠ 2)
    (hapart : P.scanApart (P.watchers (-p)) = true) : (P.propagateLit p).2.Paired F := by
  refine ⟨?_, hp.own.propagateLit hF h hsize hpn⟩
  have hnames : ∀ ci ∈ P.watchers (-p), ci < F.length := NamesClauses.getD h.watched _
  have hs := scanWatches_scanned hF P [] (P.watchers (-p)) h hsize
    (fun _ hci => absurd hci List.not_mem_nil) hnames
  have hm := scanWatches_apart hF P [] (P.watchers (-p)) h hsize
    (fun _ hci => absurd hci List.not_mem_nil) hnames hapart
  have hlt : litIdx (-p) < (scanWatches P [] (P.watchers (-p))).2.2.watches.length := by
    rw [hs.size, hsize]
    exact litIdx_lt (by rwa [Int.natAbs_neg])
  -- a watch on another literal stays, one on the negation of `p` stays or moves away from the other
  have hother : ∀ ci k, k ≠ -p → ci ∈ P.watchers k → ci ∈ (P.propagateLit p).2.watchers k := by
    intro ci k hk hw
    rw [watchers_propagateLit_of_ne hk]
    exact hs.grows k ci hw
  have hmoved : ∀ ci k, k ≠ -p → ci ∈ P.watchers k → ci ∈ P.watchers (-p) → -p ∈ F.getD ci [] →
      ∃ l ∈ F.getD ci [], l ≠ k ∧ ci ∈ (P.propagateLit p).2.watchers l := by
    intro ci k hkp hwk hwp hmem
    rcases hm.apart ci hwp with hstay | ⟨l, hl, hl2, hnew, hw⟩
    · exact ⟨-p, hmem, fun heq => hkp heq.symm, by rwa [watchers_propagateLit_self hlt]⟩
    · have hlp : l ≠ -p := fun heq => hv (heq ▸ hl2)
      exact ⟨l, hl, fun heq => hnew (heq ▸ hwk), by rwa [watchers_propagateLit_of_ne hlp]⟩
  intro ci hwide
  obtain ⟨l, hl, k, hk, hlk, hwl, hwk⟩ := hp.two ci hwide
  by_cases hlp : l = -p
  · have hkp : k ≠ -p := fun heq => hlk (hlp.trans heq.symm)
    obtain ⟨l', hl', hl'k, hw'⟩ := hmoved ci k hkp hwk (hlp ▸ hwl) (hlp ▸ hl)
    exact ⟨l', hl', k, hk, hl'k, hw', hother ci k hkp hwk⟩
  · by_cases hkp : k = -p
    · obtain ⟨k', hk', hk'l, hw'⟩ := hmoved ci l hlp hwl (hkp ▸ hwk) (hkp ▸ hk)
      exact ⟨k', hk', l, hl, hk'l, hw', hother ci l hlp hwl⟩
    · exact ⟨l, hl, k, hk, hlk, hother ci l hlp hwl, hother ci k hkp hwk⟩

/-- An iteration of the loop of `propagate` that moves the watches apart. -/
theorem Inv.paired_iteration {recorded : List ℕ} (h : P.Inv F n recorded) (hF : InRange n F)
    (hpair : P.Paired F) {p : ℤ} (hp : P.trail[P.qhead]? = some p)
    (hapart : scanApart { P with qhead := P.qhead + 1 } (P.watchers (-p)) = true) :
    (Propagator.propagateLit { P with qhead := P.qhead + 1 } p).2.Paired F := by
  have hok : Ok F n { P with qhead := P.qhead + 1 } := h.ok.of_eq rfl rfl rfl h.ok.watched
  have hpmem : p ∈ P.trail := List.mem_of_getElem? hp
  have h0 : Propagator.value { P with qhead := P.qhead + 1 } (-p) = 0 := h.value_negated hpmem
  exact Paired.propagateLit hF hok (hpair.of_eq rfl) h.size (h.exact.inRange p hpmem).2
    (by omega) hapart

theorem propagateLoop_paired (hF : InRange n F) {recorded : List ℕ} (fuel : ℕ) (P : Propagator)
    (h : P.Inv F n recorded) (hpair : P.Paired F) (hapart : loopApart fuel P = true) :
    (propagateLoop fuel P).2.Paired F := by
  induction fuel generalizing P with
  | zero => exact hpair
  | succ fuel ih =>
      rw [propagateLoop]
      rw [loopApart] at hapart
      split
      · exact hpair
      · rename_i p hp
        rw [hp] at hapart
        obtain ⟨hscan, hrest⟩ := Bool.and_eq_true_iff.mp hapart
        have hnext := h.paired_iteration hF hpair hp hscan
        have hinv := h.iterate hF hp
        split
        · rename_i Q hQ
          rw [hQ] at hnext hrest hinv
          exact ih Q (hinv rfl) hnext hrest
        · rename_i Q hQ
          rw [hQ] at hnext
          exact hnext.of_eq rfl

/-- What `propagate` appends is justified by the clauses. -/
theorem propagateLoop_justified (hF : InRange n F) {recorded : List ℕ} {D : List ℤ} (fuel : ℕ)
    (P : Propagator) (h : P.Inv F n recorded) (hD : Justified F D P.trail) :
    Justified F D (propagateLoop fuel P).2.trail := by
  induction fuel generalizing P with
  | zero => exact hD
  | succ fuel ih =>
      rw [propagateLoop]
      split
      · exact hD
      · rename_i p hp
        have hok : Ok F n { P with qhead := P.qhead + 1 } := h.ok.of_eq rfl rfl rfl h.ok.watched
        have hnext : Justified F D
            (Propagator.propagateLit { P with qhead := P.qhead + 1 } p).2.trail :=
          (scanWatches_sourced hF _ [] _ hok h.size (NamesClauses.getD hok.watched _)).justified D hD
        have hinv := h.iterate hF hp
        split
        · rename_i Q hQ
          rw [hQ] at hnext hinv
          exact ih Q (hinv rfl) hnext
        · rename_i Q hQ
          rw [hQ] at hnext
          exact hnext

/-! ### Fixpoints -/

/-- One literal of the clause is unassigned, and all its other literals are false. -/
def IsUnit (P : Propagator) (c : Clause) : Prop :=
  ∃ l ∈ c, P.value l = 2 ∧ ∀ k ∈ c, k ≠ l → P.value k = 0

/-- **A clause with two watches is not unit**: when all of the trail has been processed, it has a true
literal or two unassigned ones. -/
theorem Paired.settled {recorded : List ℕ} (hp : P.Paired F) (h : P.Inv F n recorded)
    (hunsat : P.unsat = false) (hdone : P.trail.length ≤ P.qhead) {c : Clause} (hc : c ∈ F)
    (hwide : Wide c) :
    (∃ q ∈ c, P.value q = 1) ∨ ∃ l ∈ c, ∃ k ∈ c, l ≠ k ∧ P.value l = 2 ∧ P.value k = 2 := by
  obtain ⟨ci, hci, rfl⟩ := List.mem_iff_getElem.mp hc
  have hget : F.getD ci [] = F[ci] := List.getD_eq_getElem _ _ hci
  rw [← hget] at hwide ⊢
  obtain ⟨l, hl, k, hk, hne, hwl, hwk⟩ := hp.two ci hwide
  -- a watch on a false literal has been processed
  have hwatch : ∀ w ∈ F.getD ci [], ci ∈ P.watchers w →
      (∃ q ∈ F.getD ci [], P.value q = 1) ∨ P.value w = 2 := by
    intro w hw hwci
    have hle := @value_le_two P w
    by_cases h0 : P.value w = 0
    · have hneg := h.ok.mem_of_false h0
      have hproc : -w ∈ P.trail.take P.qhead := by rwa [List.take_of_length_le hdone]
      obtain ⟨q, hq, htrail⟩ := h.current hunsat _ hproc ci (by rwa [neg_neg])
      exact .inl ⟨q, hq, h.exact.value h.ok (List.mem_of_mem_take htrail)⟩
    · by_cases h1 : P.value w = 1
      · exact .inl ⟨w, hw, h1⟩
      · exact .inr (by omega)
  rcases hwatch l hl hwl with hq | hl2
  · exact .inl hq
  · rcases hwatch k hk hwk with hq | hk2
    · exact .inl hq
    · exact .inr ⟨l, hl, k, hk, hne, hl2, hk2⟩

theorem not_isUnit {c : Clause}
    (h : (∃ q ∈ c, P.value q = 1) ∨ ∃ l ∈ c, ∃ k ∈ c, l ≠ k ∧ P.value l = 2 ∧ P.value k = 2) :
    ¬P.IsUnit c := by
  rintro ⟨u, -, hu2, hothers⟩
  rcases h with ⟨q, hq, hq1⟩ | ⟨l, hl, k, hk, hne, hl2, hk2⟩
  · have hqu : q ≠ u := fun heq => by
      rw [heq, hu2] at hq1
      exact absurd hq1 (by decide)
    have hq0 := hothers q hq hqu
    omega
  · by_cases hlu : l = u
    · have hk0 := hothers k hk fun hku => hne (hlu.trans hku.symm)
      omega
    · have hl0 := hothers l hl hlu
      omega

/-- **The trail is closed under the clauses**, if they are all wide. -/
theorem Paired.closedUnder {recorded : List ℕ} (hp : P.Paired F) (h : P.Inv F n recorded)
    (hunsat : P.unsat = false) (hdone : P.trail.length ≤ P.qhead) (hwide : ∀ c ∈ F, Wide c) :
    ClosedUnder F P.trail := by
  intro c hc l hl hothers
  have hfalse : ∀ k ∈ c, k ≠ l → P.value k = 0 := fun k hk hne => by
    have hneg := h.value_negated (hothers k hk hne)
    rwa [neg_neg] at hneg
  rcases hp.settled h hunsat hdone hc (hwide c hc) with ⟨q, hq, hq1⟩ | ⟨j, hj, k, hk, hne, hj2, hk2⟩
  · by_cases hql : q = l
    · exact h.ok.mem_of_true (hql ▸ hq1)
    · have hq0 := hfalse q hq hql
      omega
  · by_cases hjl : j = l
    · have hk0 := hfalse k hk fun hkl => hne (hjl.trans hkl.symm)
      omega
    · have hj0 := hfalse j hj hjl
      omega

theorem new_paired (hF : InRange n F) (hstart : ∀ c ∈ F, Wide c → Wide (c.take 2)) :
    (new n F).Paired F := by
  have hget : ∀ {ci c}, F[ci]? = some c → F.getD ci [] = c := fun h => by
    rw [List.getD_eq_getElem?_getD, h]
    rfl
  constructor
  · intro ci hwide
    have hci : ci < F.length := by
      by_contra hge
      obtain ⟨l₀, hl₀, -⟩ := hwide
      rw [List.getD_eq_default _ _ (not_lt.mp hge)] at hl₀
      exact absurd hl₀ List.not_mem_nil
    have hsome : F[ci]? = some (F.getD ci []) := by
      rw [List.getElem?_eq_getElem hci, List.getD_eq_getElem _ _ hci]
    have hmem : F.getD ci [] ∈ F := List.mem_of_getElem? hsome
    obtain ⟨l, hl, k, hk, hne⟩ := hstart _ hmem hwide
    exact ⟨l, List.mem_of_mem_take hl, k, List.mem_of_mem_take hk, hne,
      (mem_watchers_new hF).mpr ⟨_, hsome, hl⟩, (mem_watchers_new hF).mpr ⟨_, hsome, hk⟩⟩
  · intro l ci hci
    obtain ⟨c, hc, hl⟩ := (mem_watchers_new hF).mp hci
    rw [hget hc]
    exact List.mem_of_mem_take hl

end Propagator

/-! ### Operations in any order -/

/-- A propagator in use. -/
structure Usage where
  propagator : Propagator
  /-- The trail lengths that were recorded after a successful `propagate`. -/
  recorded : List ℕ
  /-- Those of them that the trail has not been cut below since. -/
  current : List ℕ
  /-- The literals enqueued since the last restart, as far as they are still on the trail. -/
  enqueued : List ℤ

namespace Usage

def init (nbVar : ℕ) (clauses : List Clause) : Usage := ⟨.new nbVar clauses, [], [], []⟩

/-- One operation.  A literal is enqueued if its variable is unassigned, and a length is recorded
whenever `propagate` returns true. -/
def step (u : Usage) : Session.Op → Option Usage
  | .restart =>
      some
        { propagator := u.propagator.restart
          recorded := u.recorded
          current := u.current.filter (· ≤ 0)
          enqueued := [] }
  | .enqueue l =>
      if l ≠ 0 ∧ l.natAbs < u.propagator.assign.length ∧ u.propagator.value l = 2 then
        some
          { u with
            propagator := u.propagator.uncheckedEnqueue l
            enqueued := u.enqueued ++ [l] }
      else none
  | .propagate =>
      if u.propagator.propagate.1 = true then
        some
          { u with
            propagator := u.propagator.propagate.2
            recorded := u.recorded ++ [u.propagator.propagate.2.trail.length]
            current := u.current ++ [u.propagator.propagate.2.trail.length] }
      else some { u with propagator := u.propagator.propagate.2 }
  | .cancel pos =>
      if pos ∈ u.recorded then
        some
          { propagator := u.propagator.cancelUntilPos pos
            recorded := u.recorded
            current := u.current.filter (· ≤ pos)
            enqueued := u.enqueued.filter (· ∈ u.propagator.trail.take pos) }
      else none

/-- `propagate` moves no watch to a literal that the clause watches already, and it is not called
before an earlier conflict is undone; a recorded length is not used after the trail has been cut
below it. -/
def KeepsWatches (u : Usage) : Session.Op → Prop
  | .propagate => u.propagator.unsat = false ∧ u.propagator.movesApart = true
  | .cancel pos => pos ∈ u.current
  | _ => True

variable {F : List Clause} {n : ℕ} {u u' : Usage} {op : Session.Op}

/-- What holds in runs that keep the watches apart. -/
structure Sound (F : List Clause) (n : ℕ) (u : Usage) : Prop where
  inv : u.propagator.Inv F n u.current
  paired : u.propagator.Paired F
  justified : Justified F u.enqueued u.propagator.trail
  present : ∀ l ∈ u.enqueued, l ∈ u.propagator.trail

/-- A successful `propagate` leaves nothing unprocessed. -/
theorem Sound.propagated (h : u.Sound F n) (hF : InRange n F) (hkeeps : u.KeepsWatches .propagate)
    (hok : u.propagator.propagate.1 = true) :
    u.propagator.propagate.2.Inv F n u.current ∧ u.propagator.propagate.2.unsat = false ∧
      u.propagator.propagate.2.trail.length ≤ u.propagator.propagate.2.qhead := by
  refine ⟨h.inv.propagate hF, ?_, Propagator.propagate_complete hF h.inv.ok hok⟩
  rw [(Propagator.propagate_extends hF h.inv.ok).2 hok]
  exact hkeeps.1

theorem Sound.propagate (h : u.Sound F n) (hF : InRange n F) (hkeeps : u.KeepsWatches .propagate) :
    Sound F n { u with propagator := u.propagator.propagate.2 } where
  inv := h.inv.propagate hF
  paired := Propagator.propagateLoop_paired hF _ _ h.inv h.paired hkeeps.2
  justified := Propagator.propagateLoop_justified hF _ _ h.inv h.justified
  present l hl := by
    obtain ⟨more, hmore⟩ := (Propagator.propagate_extends hF h.inv.ok).1.adds
    rw [hmore.trail]
    exact List.mem_append_left more (h.present l hl)

theorem Sound.step (hF : InRange n F) (h : u.Sound F n) (hkeeps : u.KeepsWatches op)
    (hs : u.step op = some u') : u'.Sound F n := by
  cases op with
  | restart =>
      obtain rfl := Option.some.inj hs
      exact ⟨h.inv.restart, h.paired.of_eq rfl, .nil, fun l hl => absurd hl List.not_mem_nil⟩
  | enqueue l =>
      obtain ⟨⟨hz, hlt, hv⟩, hs⟩ := (Option.ite_none_right_eq_some).mp hs
      obtain rfl := Option.some.inj hs
      rw [h.inv.ok.size] at hlt
      have hlast : l ∈ u.enqueued ++ [l] := List.mem_append_right _ List.mem_cons_self
      refine ⟨h.inv.enqueue hz (by omega) hv, h.paired.of_eq rfl, ?_, fun k hk => ?_⟩
      · exact (h.justified.congr fun k _ => List.mem_append_left [l]).concat (.inl hlast)
      · show k ∈ u.propagator.trail ++ [l]
        rw [List.mem_append] at hk ⊢
        exact hk.imp (h.present k) id
  | propagate =>
      rw [Usage.step] at hs
      split at hs
      · rename_i hok
        obtain rfl := Option.some.inj hs
        obtain ⟨hinv, hunsat, hdone⟩ := h.propagated hF hkeeps hok
        exact { h.propagate hF hkeeps with inv := hinv.record hunsat hdone }
      · obtain rfl := Option.some.inj hs
        exact h.propagate hF hkeeps
  | cancel pos =>
      obtain ⟨-, hs⟩ := (Option.ite_none_right_eq_some).mp hs
      obtain rfl := Option.some.inj hs
      have hjustified := h.justified
      rw [← List.take_append_drop pos u.propagator.trail] at hjustified
      refine ⟨h.inv.cancel hkeeps, h.paired.of_eq rfl, ?_, fun l hl => ?_⟩
      · exact hjustified.left.congr fun l hl hmem => List.mem_filter.mpr ⟨hmem, decide_eq_true hl⟩
      · exact of_decide_eq_true (List.mem_filter.mp hl).2

theorem sound_of_reaches (hF : InRange n F) (hstart : ∀ c ∈ F, Wide c → Wide (c.take 2))
    (hr : Reaches step KeepsWatches (init n F) u) : u.Sound F n := by
  refine hr.invariant (Sound F n) ?_ fun _ _ _ h hkeeps hs => h.step hF hkeeps hs
  exact ⟨Propagator.new_inv hF, Propagator.new_paired hF hstart, .nil,
    fun l hl => absurd hl List.not_mem_nil⟩

/-- The first two literals of a clause on distinct variables differ. -/
theorem wide_take {c : Clause} (hlen : 2 ≤ c.length) (hnodup : (c.map Int.natAbs).Nodup) :
    Wide (c.take 2) := by
  obtain ⟨l, k, rest, rfl⟩ : ∃ l k rest, c = l :: k :: rest := by
    match c, hlen with
    | l :: k :: rest, _ => exact ⟨l, k, rest, rfl⟩
  refine ⟨l, List.mem_cons_self, k, List.mem_cons_of_mem _ List.mem_cons_self, fun heq => ?_⟩
  rw [heq] at hnodup
  simp at hnodup

/-- **`propagate` reaches the fixpoint** in runs whose steps keep the watches apart: it misses no
unit, and the trail does not depend on the history of the watches. -/
theorem reaches_fixpoint (hF : InRange n F)
    (hclauses : ∀ c ∈ F, 2 ≤ c.length ∧ (c.map Int.natAbs).Nodup) :
    (∀ u, Reaches step KeepsWatches (init n F) u → u.KeepsWatches .propagate →
      u.propagator.propagate.1 = true → ∀ c ∈ F, ¬u.propagator.propagate.2.IsUnit c) ∧
    ∀ u u', Reaches step KeepsWatches (init n F) u → u.KeepsWatches .propagate →
      u.propagator.propagate.1 = true →
      Reaches step KeepsWatches (init n F) u' → u'.KeepsWatches .propagate →
      u'.propagator.propagate.1 = true → (∀ l, l ∈ u.enqueued ↔ l ∈ u'.enqueued) →
      ∀ l, l ∈ u.propagator.propagate.2.trail ↔ l ∈ u'.propagator.propagate.2.trail := by
  have hstart : ∀ c ∈ F, Wide (c.take 2) := fun c hc => wide_take (hclauses c hc).1 (hclauses c hc).2
  have hwide : ∀ c ∈ F, Wide c := by
    intro c hc
    obtain ⟨l, hl, k, hk, hne⟩ := hstart c hc
    exact ⟨l, List.mem_of_mem_take hl, k, List.mem_of_mem_take hk, hne⟩
  have hclosure : ∀ u, Reaches step KeepsWatches (init n F) u → u.KeepsWatches .propagate →
      u.propagator.propagate.1 = true →
      ∀ l, l ∈ u.propagator.propagate.2.trail ↔ Forced F u.enqueued l := by
    intro u hr hkeeps hok l
    have h := sound_of_reaches hF (fun c hc _ => hstart c hc) hr
    obtain ⟨hinv, hunsat, hdone⟩ := h.propagated hF hkeeps hok
    have hafter := h.propagate hF hkeeps
    exact hafter.justified.mem_iff (hafter.paired.closedUnder hinv hunsat hdone hwide) hafter.present
  constructor
  · intro u hr hkeeps hok c hc
    have h := sound_of_reaches hF (fun c hc _ => hstart c hc) hr
    obtain ⟨hinv, hunsat, hdone⟩ := h.propagated hF hkeeps hok
    exact Propagator.not_isUnit
      ((h.propagate hF hkeeps).paired.settled hinv hunsat hdone hc (hwide c hc))
  · intro u u' hr hkeeps hok hr' hkeeps' hok' hsame l
    rw [hclosure u hr hkeeps hok, hclosure u' hr' hkeeps' hok']
    exact ⟨fun h => h.mono fun k => (hsame k).mp, fun h => h.mono fun k => (hsame k).mpr⟩

instance : ∀ (u : Usage) (op : Session.Op), Decidable (u.KeepsWatches op)
  | _, .restart => .isTrue trivial
  | _, .enqueue _ => .isTrue trivial
  | u, .propagate =>
      inferInstanceAs (Decidable (u.propagator.unsat = false ∧ u.propagator.movesApart = true))
  | u, .cancel pos => inferInstanceAs (Decidable (pos ∈ u.current))

/-- After `-1` and `-2` the first clause watches `3` and `2`; then `-3` is decided instead. -/
theorem reaches_fixpoint_fourLits : ∃ u,
    Reaches step KeepsWatches (init 4 [[1, 2, 3, 4], [1, 3]]) u ∧
      u.propagator.watchers 3 = [1, 0] ∧ u.propagator.propagate.2.trail = [-3, 1] ∧
      ∀ c ∈ [[1, 2, 3, 4], [1, 3]], ¬u.propagator.propagate.2.IsUnit c := by
  have hrun : (exec (fun u op => if decide (u.KeepsWatches op) then step u op else none)
      (init 4 [[1, 2, 3, 4], [1, 3]])
      [.enqueue (-1), .enqueue (-2), .propagate, .restart, .enqueue (-3)]).map
      (fun u => (u.propagator.watchers 3, u.propagator.propagate.2.trail, u.propagator.propagate.1,
        decide (u.KeepsWatches .propagate))) = some ([1, 0], [-3, 1], true, true) := by
    decide +kernel
  obtain ⟨u, hexec, hu⟩ := Option.map_eq_some_iff.mp hrun
  obtain ⟨hwatch, hu⟩ := Prod.mk.inj hu
  obtain ⟨htrail, hu⟩ := Prod.mk.inj hu
  obtain ⟨hok, hkeeps⟩ := Prod.mk.inj hu
  have hreach : Reaches step KeepsWatches (init 4 [[1, 2, 3, 4], [1, 3]]) u :=
    .of_exec_checked (fun _ _ => of_decide_eq_true) hexec
  have hF : InRange 4 [[1, 2, 3, 4], [1, 3]] := by
    unfold InRange
    decide
  exact ⟨u, hreach, hwatch, htrail,
    (reaches_fixpoint hF (by decide)).1 u hreach (of_decide_eq_true hkeeps) hok⟩

/-- **A missed unit.**  After `-1` both watches of the clause are on `2`, and `-3` is not noticed;
with the watches of the beginning the same two literals imply `2`. -/
theorem misses_unit : ∃ u u', Reachable step (init 3 [[1, 2, 3]]) u ∧
    Reachable step (init 3 [[1, 2, 3]]) u' ∧ u.enqueued = [-1, -3] ∧ u'.enqueued = [-1, -3] ∧
    u.propagator.propagate.1 = true ∧ u'.propagator.propagate.1 = true ∧
    u.propagator.propagate.2.IsUnit [1, 2, 3] ∧
    u.propagator.propagate.2.trail = [-1, -3] ∧ u'.propagator.propagate.2.trail = [-1, -3, 2] := by
  have hrun : (exec step (init 3 [[1, 2, 3]]) [.enqueue (-1), .propagate, .enqueue (-3)]).map
      (fun u => (u.enqueued, u.propagator.propagate.1, u.propagator.propagate.2.trail,
        [1, 2, 3].map u.propagator.propagate.2.value)) =
      some ([-1, -3], true, [-1, -3], [0, 2, 0]) := by decide +kernel
  have hrun' : (exec step (init 3 [[1, 2, 3]]) [.enqueue (-1), .enqueue (-3)]).map
      (fun u => (u.enqueued, u.propagator.propagate.1, u.propagator.propagate.2.trail)) =
      some ([-1, -3], true, [-1, -3, 2]) := by decide +kernel
  obtain ⟨u, hexec, hu⟩ := Option.map_eq_some_iff.mp hrun
  obtain ⟨u', hexec', hu'⟩ := Option.map_eq_some_iff.mp hrun'
  obtain ⟨henq, hu⟩ := Prod.mk.inj hu
  obtain ⟨hok, hu⟩ := Prod.mk.inj hu
  obtain ⟨htrail, hvalues⟩ := Prod.mk.inj hu
  obtain ⟨henq', hu'⟩ := Prod.mk.inj hu'
  obtain ⟨hok', htrail'⟩ := Prod.mk.inj hu'
  have hunit : u.propagator.propagate.2.IsUnit [1, 2, 3] := by
    simp only [List.map_cons, List.map_nil, List.cons.injEq, and_true] at hvalues
    refine ⟨2, by decide, hvalues.2.1, ?_⟩
    simp [hvalues.1, hvalues.2.2]
  exact ⟨u, u', .of_exec (fun _ _ _ => trivial) hexec, .of_exec (fun _ _ _ => trivial) hexec', henq,
    henq', hok, hok', hunit, htrail, htrail'⟩

end Usage

end HydraSAT.CubeGenCli
