import HydraSAT.CubeGenerator.Reducer

/-!
# What the vendored propagator derives

A clause whose watch is false is looked at when the negation of the watch is processed.  It keeps such a
watch only if one of its literals is true, and that literal was true before any later point of the trail
that one can go back to.  So no unit is missed, also after going back.

* `Appends`, `Grows`, `Outcome`: what a part of the propagation does;
* `Supported`: the processed literals have had their effect on a part of the trail;
* `Closed`: nothing is left to propagate, which does not depend on the order of the literals in the
  clauses or of the clauses in the watch lists;
* `Ready.propagate`: propagation closes the trail or refutes it, and leaves a closed trail alone.
-/

namespace HydraSAT.CubeGenerator.Reducer

open HydraSAT.Lib

variable {F : List Clause} {n : ℕ} {l : ℤ}

/-! ### Entailed clauses -/

/-- **The last literal** of an entailed clause whose other literals the trail refutes. -/
theorem Entails.unit {c : Clause} {T : List ℤ} (hc : Entails F c) (hz : ∀ k ∈ c, k ≠ 0)
    (hothers : ∀ k ∈ c, k = l ∨ -k ∈ T) {a : Assignment} (ha : formulaTrue a F = true)
    (hT : cubeTrue a T = true) : litTrue a l = true := by
  obtain ⟨k, hk, htrue⟩ := List.any_eq_true.mp (hc a ha)
  rcases hothers k hk with rfl | hneg
  · exact htrue
  · have hfalse := cubeTrue_iff.mp hT (-k) hneg
    rw [litTrue_neg (hz k hk), htrue] at hfalse
    exact nomatch hfalse

/-- An entailed clause that the trail refutes. -/
theorem Entails.refutes {c : Clause} {T : List ℤ} (hc : Entails F c) (hz : ∀ k ∈ c, k ≠ 0)
    (hall : ∀ k ∈ c, -k ∈ T) {a : Assignment} (ha : formulaTrue a F = true) :
    cubeTrue a T = false := by
  by_contra hT
  rw [Bool.not_eq_false] at hT
  obtain ⟨k, hk, htrue⟩ := List.any_eq_true.mp (hc a ha)
  have hfalse := cubeTrue_iff.mp hT (-k) (hall k hk)
  rw [litTrue_neg (hz k hk), htrue] at hfalse
  exact nomatch hfalse

namespace Propagator

variable {P Q R : Propagator}

/-! ### Growing -/

/-- The literals of a stored clause. -/
def lits (P : Propagator) (cref : ℕ) : Clause :=
  match P.clauses[cref]? with
  | none => []
  | some c => c.lits

/-- The same clauses and the same units, but for the order of the literals. -/
structure Same (P Q : Propagator) : Prop where
  isUnsat : Q.isUnsat = P.isUnsat
  trailLimUnit : Q.trailLimUnit = P.trailLimUnit
  binary : Q.binary = P.binary
  size : Q.clauses.length = P.clauses.length
  lits : ∀ cref, (Q.lits cref).Perm (P.lits cref)

theorem Same.of_eq (hunsat : Q.isUnsat = P.isUnsat) (hlim : Q.trailLimUnit = P.trailLimUnit)
    (hbinary : Q.binary = P.binary) (hclauses : Q.clauses = P.clauses) : Same P Q where
  isUnsat := hunsat
  trailLimUnit := hlim
  binary := hbinary
  size := congrArg List.length hclauses
  lits cref := by
    rw [Propagator.lits, Propagator.lits, hclauses]

theorem Same.refl (P : Propagator) : Same P P := .of_eq rfl rfl rfl rfl

theorem Same.trans (h : Same P Q) (h' : Same Q R) : Same P R where
  isUnsat := h'.isUnsat.trans h.isUnsat
  trailLimUnit := h'.trailLimUnit.trans h.trailLimUnit
  binary := h'.binary.trans h.binary
  size := h'.size.trans h.size
  lits cref := (h'.lits cref).trans (h.lits cref)

/-- The trail is extended, and a clause is newly watched only by a literal that was unassigned. -/
structure Appends (P Q : Propagator) : Prop extends Same P Q where
  trail : ∃ more, Q.trail = P.trail ++ more
  watches : ∀ l, ∀ cref ∈ Q.watches l, cref ∈ P.watches l ∨ (l ∉ P.trail ∧ -l ∉ P.trail)

theorem Appends.of_same (h : Same P Q) (htrail : Q.trail = P.trail) (hwatches : Q.watches = P.watches) :
    Appends P Q where
  toSame := h
  trail := ⟨[], htrail.trans (List.append_nil _).symm⟩
  watches _ _ hcref := .inl (hwatches ▸ hcref)

theorem Appends.enqueue (P : Propagator) (l : ℤ) : Appends P (P.uncheckedEnqueue l) where
  toSame := .of_eq rfl rfl rfl rfl
  trail := ⟨[l], rfl⟩
  watches _ _ := .inl

theorem Appends.mem (h : Appends P Q) {k : ℤ} (hk : k ∈ P.trail) : k ∈ Q.trail := by
  obtain ⟨more, htrail⟩ := h.trail
  exact htrail ▸ List.mem_append_left more hk

theorem Appends.trans (h : Appends P Q) (h' : Appends Q R) : Appends P R where
  toSame := h.toSame.trans h'.toSame
  trail := by
    obtain ⟨more, htrail⟩ := h.trail
    obtain ⟨more', htrail'⟩ := h'.trail
    exact ⟨more ++ more', by rw [htrail', htrail, List.append_assoc]⟩
  watches l cref hcref := by
    rcases h'.watches l cref hcref with hold | ⟨hpos, hneg⟩
    · exact h.watches l cref hold
    · exact .inr ⟨fun hl => hpos (h.mem hl), fun hl => hneg (h.mem hl)⟩

theorem Appends.length_le (h : Appends P Q) : P.trail.length ≤ Q.trail.length := by
  obtain ⟨more, htrail⟩ := h.trail
  rw [htrail, List.length_append]
  exact Nat.le_add_right _ _

theorem Appends.take (h : Appends P Q) {r : ℕ} (hr : r ≤ P.trail.length) :
    Q.trail.take r = P.trail.take r := by
  obtain ⟨more, htrail⟩ := h.trail
  rw [htrail, List.take_append_of_le_length hr]

/-- **`Q` grows from `P`**: what is appended follows from the formula and the trail. -/
structure Grows (F : List Clause) (P Q : Propagator) : Prop extends Appends P Q where
  implied : ∀ a, formulaTrue a F = true → cubeTrue a P.trail = true → cubeTrue a Q.trail = true

theorem Grows.of_same (h : Same P Q) (htrail : Q.trail = P.trail) (hwatches : Q.watches = P.watches) :
    Grows F P Q where
  toAppends := .of_same h htrail hwatches
  implied _ _ hP := htrail ▸ hP

theorem Grows.trans (h : Grows F P Q) (h' : Grows F Q R) : Grows F P R where
  toAppends := h.toAppends.trans h'.toAppends
  implied a ha hP := h'.implied a ha (h.implied a ha hP)

/-- What grows has the same models. -/
theorem Grows.cubeTrue_eq (h : Grows F P Q) {a : Assignment} (ha : formulaTrue a F = true) :
    cubeTrue a Q.trail = cubeTrue a P.trail := by
  obtain ⟨more, htrail⟩ := h.trail
  have himplied := h.implied a ha
  rw [htrail, cubeTrue_append] at himplied ⊢
  cases hP : cubeTrue a P.trail with
  | false => rfl
  | true =>
      rw [hP] at himplied
      exact himplied rfl

theorem Grows.enqueue (hunit : ∀ a, formulaTrue a F = true → cubeTrue a P.trail = true →
    litTrue a l = true) : Grows F P (P.uncheckedEnqueue l) where
  toAppends := .enqueue P l
  implied a ha hP := by
    show cubeTrue a (P.trail ++ [l]) = true
    rw [cubeTrue_snoc, hP, hunit a ha hP]
    rfl

/-! ### Closed trails -/

/-- Nothing is left to propagate from the trail `T`. -/
structure Closed (P : Propagator) (T : List ℤ) : Prop where
  binary : ∀ p ∈ T, ∀ k ∈ P.binary p, k ∈ T
  long : ∀ cref < P.clauses.length,
    (∃ q ∈ P.lits cref, q ∈ T) ∨ 2 ≤ (P.lits cref).countP fun k => -k ∉ T

theorem Closed.same {T : List ℤ} (h : P.Closed T) (hsame : Same P Q) : Q.Closed T where
  binary := hsame.binary ▸ h.binary
  long cref hcref := by
    have hperm := hsame.lits cref
    refine (h.long cref (hsame.size ▸ hcref)).imp ?_ fun hcount => ?_
    · exact fun ⟨q, hq, hmem⟩ => ⟨q, hperm.mem_iff.mpr hq, hmem⟩
    · rwa [hperm.countP_eq]

/-- The trail has no model of the formula. -/
def Refuted (F : List Clause) (P : Propagator) : Prop :=
  ∀ a, formulaTrue a F = true → cubeTrue a P.trail = false

/-- What a part of the propagation does from `P`; the result `false` reports a conflict. -/
structure Outcome (F : List Clause) (n : ℕ) (P : Propagator) (r : Bool × Propagator) : Prop where
  inv : r.2.Inv F n
  grows : Grows F P r.2
  refuted : r.1 = false → r.2.Refuted F
  idle : P.Closed P.trail → r.1 = true ∧ r.2.trail = P.trail

theorem Outcome.refl (h : P.Inv F n) : Outcome F n P (true, P) where
  inv := h
  grows := .of_same (.refl P) rfl rfl
  refuted := fun hfalse => nomatch hfalse
  idle _ := ⟨rfl, rfl⟩

theorem Outcome.trans {r : Bool × Propagator} (h : Outcome F n P (true, Q)) (h' : Outcome F n Q r) :
    Outcome F n P r where
  inv := h'.inv
  grows := h.grows.trans h'.grows
  refuted := h'.refuted
  idle hclosed := by
    obtain ⟨-, htrail⟩ := h.idle hclosed
    replace htrail : Q.trail = P.trail := htrail
    obtain ⟨hok, hlater⟩ := h'.idle (htrail ▸ hclosed.same h.grows.toSame)
    exact ⟨hok, hlater.trans htrail⟩

/-- A change of queue head and clause order only. -/
theorem Outcome.of_same (h : Q.Inv F n) (hsame : Same P Q) (htrail : Q.trail = P.trail)
    (hwatches : Q.watches = P.watches) : Outcome F n P (true, Q) where
  inv := h
  grows := .of_same hsame htrail hwatches
  refuted := fun hfalse => nomatch hfalse
  idle _ := ⟨rfl, htrail⟩

/-! ### Binary clauses -/

theorem propagateBinary_outcome {ks : List ℤ} (h : P.Inv F n) (hl : l ∈ P.trail)
    (hks : ∀ k ∈ ks, k ∈ P.binary l) : Outcome F n P (P.propagateBinary ks) ∧
      (P.propagateBinary ks).2.trailPos = P.trailPos ∧
      ((P.propagateBinary ks).1 = true → ∀ k ∈ ks, k ∈ (P.propagateBinary ks).2.trail) := by
  induction ks generalizing P with
  | nil => exact ⟨.refl h, rfl, fun _ k hk => absurd hk List.not_mem_nil⟩
  | cons k ks ih =>
      obtain ⟨hk, hks⟩ := List.forall_mem_cons.mp hks
      obtain ⟨hvalid, hentails⟩ := h.binary l k hk
      have hz : ∀ j ∈ [-l, k], j ≠ 0 := by
        intro j hj
        rcases List.mem_pair.mp hj with rfl | rfl
        · exact neg_ne_zero.mpr (h.valid l hl).1
        · exact hvalid.1
      have hnegl : - -l ∈ P.trail := by rwa [neg_neg]
      rw [propagateBinary]
      split
      · rename_i hopen
        have hone : Outcome F n P (true, P.uncheckedEnqueue k) := by
          refine ⟨h.enqueue hvalid hopen, .enqueue fun a ha hT => hentails.unit hz ?_ ha hT,
            fun hfalse => (nomatch hfalse), fun hclosed => ?_⟩
          · intro j hj
            rcases List.mem_pair.mp hj with rfl | rfl
            · exact .inr hnegl
            · exact .inl rfl
          · exact absurd (hclosed.binary l hl k hk) (h.two_le_value.mp hopen).1
        obtain ⟨hout, hpos, hdone⟩ := ih hone.inv (hone.grows.mem hl) hks
        refine ⟨hone.trans hout, hpos, fun hok j hj => ?_⟩
        rcases List.mem_cons.mp hj with rfl | hj
        · exact hout.grows.mem (List.mem_append_right _ List.mem_cons_self)
        · exact hdone hok j hj
      · rename_i hset
        split
        · rename_i hfalse
          have hneg := h.value_eq_one.mp hfalse
          refine ⟨⟨h, .of_same (.refl P) rfl rfl, fun _ a ha => hentails.refutes hz ?_ ha,
            fun hclosed => ?_⟩, rfl, fun hok => nomatch hok⟩
          · intro j hj
            rcases List.mem_pair.mp hj with rfl | rfl
            · exact hnegl
            · exact hneg
          · exact absurd hneg (h.neg_not_mem (hclosed.binary l hl k hk))
        · rename_i hfalse
          obtain ⟨hout, hpos, hdone⟩ := ih h hl hks
          refine ⟨hout, hpos, fun hok j hj => ?_⟩
          rcases List.mem_cons.mp hj with rfl | hj
          · exact hout.grows.mem (h.value_eq_zero.mp (by omega))
          · exact hdone hok j hj

/-! ### One entry of a watch list -/

/-- The search finds the first literal that is not false. -/
theorem search_some {ks before behind : List ℤ} {w : ℤ} (h : P.search ks = some (before, w, behind)) :
    ks = before ++ w :: behind ∧ P.value w ≠ 1 := by
  induction ks generalizing before with
  | nil => exact nomatch h
  | cons k ks ih =>
      rw [search] at h
      split at h
      · obtain ⟨⟨before', w', behind'⟩, hr, heq⟩ := Option.map_eq_some_iff.mp h
        obtain ⟨rfl, hrest⟩ := Prod.mk.inj heq
        obtain ⟨rfl, rfl⟩ := Prod.mk.inj hrest
        obtain ⟨rfl, hv⟩ := ih hr
        exact ⟨rfl, hv⟩
      · rename_i hv
        obtain ⟨rfl, hrest⟩ := Prod.mk.inj (Option.some.inj h)
        obtain ⟨rfl, rfl⟩ := Prod.mk.inj hrest
        exact ⟨rfl, hv⟩

theorem search_none {ks : List ℤ} (h : P.search ks = none) : ∀ k ∈ ks, P.value k = 1 := by
  induction ks with
  | nil => exact fun k hk => absurd hk List.not_mem_nil
  | cons k ks ih =>
      rw [search] at h
      split at h
      · rename_i hv
        exact List.forall_mem_cons.mpr ⟨hv, ih (Option.map_eq_none_iff.mp h)⟩
      · exact nomatch h

/-- The four ways to leave an entry; `c` is the clause with the false watch in front. -/
inductive Visited (P : Propagator) (l : ℤ) (cref : ℕ) (c : LongClause) : Visit × Propagator → Prop
  | satisfied (q) : q ∈ c.lits → P.value q = 0 → Visited P l cref c (.keep, P.store cref c)
  | unit : 2 ≤ P.value c.second → (∀ k ∈ c.others, P.value k = 1) →
      Visited P l cref c (.keep, (P.store cref c).uncheckedEnqueue c.second)
  | conflict : P.value c.second = 1 → (∀ k ∈ c.others, P.value k = 1) →
      Visited P l cref c (.conflict, P.store cref c)
  | move (before w behind) : c.others = before ++ w :: behind → 2 ≤ P.value w →
      Visited P l cref c
        (.move, (P.store cref ⟨w, c.second, before ++ -l :: behind⟩).push w cref)

theorem visit_cases {cref : ℕ} {stored : LongClause}
    (hget : P.clauses[cref]? = some stored) (hwatch : stored.first = -l ∨ stored.second = -l) :
    ∃ c : LongClause, c.first = -l ∧ [c.first, c.second].Perm [stored.first, stored.second] ∧
      c.others = stored.others ∧ Visited P l cref c (P.visit l cref) := by
  have hkept : { P with asserted :=
      P.asserted && decide (stored.first = -l ∨ stored.second = -l) } = P := by
    rw [decide_eq_true hwatch, Bool.and_true]
  have hturn : ∃ c : LongClause, (if stored.second = -l then
      ⟨stored.second, stored.first, stored.others⟩ else stored) = c ∧ c.first = -l ∧
      [c.first, c.second].Perm [stored.first, stored.second] ∧ c.others = stored.others := by
    by_cases hsecond : stored.second = -l
    · rw [if_pos hsecond]
      exact ⟨_, rfl, hsecond, List.Perm.swap _ _ _, rfl⟩
    · rw [if_neg hsecond]
      exact ⟨_, rfl, hwatch.resolve_right hsecond, List.Perm.refl _, rfl⟩
  obtain ⟨c, hc, hfirst, hperm, hothers⟩ := hturn
  refine ⟨c, hfirst, hperm, hothers, ?_⟩
  unfold visit
  rw [hget]
  simp only [hkept, hc]
  have hmem : c.second ∈ c.lits := List.mem_cons_of_mem _ List.mem_cons_self
  split
  · rename_i htrue
    exact .satisfied c.second hmem htrue
  · rename_i hntrue
    split
    · rename_i hnone
      split
      · rename_i hfalse
        exact .conflict hfalse (search_none hnone)
      · rename_i hnfalse
        exact .unit (by omega) (search_none hnone)
    · rename_i before w behind hsome
      obtain ⟨hsplit, hw⟩ := search_some hsome
      split
      · rename_i htrue
        refine .satisfied w (List.mem_cons_of_mem _ (List.mem_cons_of_mem _ ?_)) htrue
        rw [hsplit]
        exact List.mem_append_right _ List.mem_cons_self
      · rename_i hopen
        rw [hfirst]
        exact .move before w behind hsplit (by omega)

theorem getElem?_store {cref i : ℕ} {c : LongClause} (hlt : cref < P.clauses.length) :
    (P.store cref c).clauses[i]? = if i = cref then some c else P.clauses[i]? := by
  show (P.clauses.set cref c)[i]? = _
  by_cases hi : i = cref
  · rw [if_pos hi, hi, List.getElem?_set_self hlt]
  · rw [if_neg hi, List.getElem?_set_ne (Ne.symm hi)]

/-- A clause whose literals are permuted. -/
theorem Same.store {cref : ℕ} {c stored : LongClause} (hget : P.clauses[cref]? = some stored)
    (hperm : c.lits.Perm stored.lits) : Same P (P.store cref c) where
  isUnsat := rfl
  trailLimUnit := rfl
  binary := rfl
  size := List.length_set
  lits i := by
    have hlt := (List.getElem?_eq_some_iff.mp hget).1
    rw [Propagator.lits, Propagator.lits, getElem?_store hlt]
    by_cases hi : i = cref
    · rw [if_pos hi, hi, hget]
      exact hperm
    · rw [if_neg hi]

theorem watching_store {cref i : ℕ} {c : LongClause} {k : ℤ} (hlt : cref < P.clauses.length) :
    (P.store cref c).watching i k = if i = cref then [c.first, c.second].count k else P.watching i k := by
  rw [watching, watching, getElem?_store hlt]
  by_cases hi : i = cref
  · rw [if_pos hi, if_pos hi]
  · rw [if_neg hi, if_neg hi]

/-- The clauses, where one is replaced by a permutation of it. -/
theorem Inv.mem_store (h : P.Inv F n) {cref : ℕ} {c stored : LongClause}
    (hget : P.clauses[cref]? = some stored) (hperm : c.lits.Perm stored.lits) :
    ∀ d ∈ (P.store cref c).clauses, (∀ l ∈ d.lits, Valid n l) ∧ Entails F d.lits := by
  intro d hd
  rcases List.mem_or_eq_of_mem_set hd with hd | rfl
  · exact h.clauses d hd
  · obtain ⟨hvalid, hentails⟩ := h.clauses stored (List.mem_of_getElem? hget)
    refine ⟨fun k hk => hvalid k (hperm.mem_iff.mp hk), fun a ha => ?_⟩
    obtain ⟨k, hk, htrue⟩ := List.any_eq_true.mp (hentails a ha)
    exact List.any_eq_true.mpr ⟨k, hperm.mem_iff.mpr hk, htrue⟩

theorem Inv.store (h : P.Inv F n) {cref : ℕ} {c stored : LongClause}
    (hget : P.clauses[cref]? = some stored) (hperm : c.lits.Perm stored.lits)
    (hwatch : [c.first, c.second].Perm [stored.first, stored.second]) :
    (P.store cref c).Inv F n where
  nbVar := h.nbVar
  binary := h.binary
  clauses := h.mem_store hget hperm
  watched l i := by
    rw [watching_store (List.getElem?_eq_some_iff.mp hget).1]
    refine (h.watched l i).trans ?_
    by_cases hi : i = cref
    · rw [if_pos hi, watching, hi, hget]
      exact (hwatch.count_eq l).symm
    · rw [if_neg hi]
  valid := h.valid
  nodup := h.nodup
  assignTrue := h.assignTrue
  assignFalse := h.assignFalse
  limit := h.limit
  units := h.units
  asserted := h.asserted

/-- **A watch moves** from a false to an unassigned literal of its clause. -/
theorem Inv.move (h : P.Inv F n) {cref : ℕ} {c stored : LongClause} {before behind : List ℤ} {w : ℤ}
    {kept rest : List ℕ} (hget : P.clauses[cref]? = some stored)
    (hperm : (LongClause.lits ⟨w, c.second, before ++ -l :: behind⟩).Perm stored.lits)
    (hwatch : [-l, c.second].Perm [stored.first, stored.second]) (hne : w ≠ -l)
    (hlist : P.watches (-l) = kept ++ cref :: rest) :
    Propagator.Inv F n { (P.store cref ⟨w, c.second, before ++ -l :: behind⟩).push w cref with
      watches := Function.update ((P.store cref ⟨w, c.second, before ++ -l :: behind⟩).push w cref).watches
        (-l) (kept ++ rest) } where
  nbVar := h.nbVar
  binary := h.binary
  clauses := h.mem_store hget hperm
  watched k i := by
    have hlt := (List.getElem?_eq_some_iff.mp hget).1
    have hold := h.watched k i
    show List.count i (Function.update (Function.update P.watches w (P.watches w ++ [cref])) (-l)
      (kept ++ rest) k) = (P.store cref _).watching i k
    rw [watching_store hlt, Function.update_apply, Function.update_apply]
    have hstored : P.watching cref k = [-l, c.second].count k := by
      rw [watching, hget]
      exact (hwatch.count_eq k).symm
    by_cases hk : k = -l
    · subst hk
      rw [if_pos rfl]
      rw [hlist, List.count_append, List.count_cons] at hold
      rw [List.count_append]
      by_cases hi : i = cref
      · rw [if_pos hi]
        rw [hi] at hold ⊢
        simp only [hstored, List.count_cons, List.count_nil, beq_iff_eq, hne, if_false, if_true] at hold ⊢
        omega
      · rw [if_neg hi, ← hold, if_neg (by simpa using fun heq => hi heq.symm)]
        omega
    · rw [if_neg hk]
      by_cases hw : k = w
      · rw [if_pos hw, List.count_append, ← hw, hold, List.count_singleton]
        by_cases hi : i = cref
        · rw [if_pos hi, hi, hstored]
          simp only [List.count_cons, List.count_nil, beq_self_eq_true, if_true, beq_iff_eq,
            Ne.symm hk, if_false]
        · rw [if_neg hi, if_neg (by simpa using fun heq => hi heq.symm), Nat.add_zero]
      · rw [if_neg hw, hold]
        by_cases hi : i = cref
        · rw [if_pos hi, hi, hstored]
          simp only [List.count_cons, List.count_nil, beq_iff_eq, Ne.symm hk, Ne.symm hw, if_false]
        · rw [if_neg hi]
  valid := h.valid
  nodup := h.nodup
  assignTrue := h.assignTrue
  assignFalse := h.assignFalse
  limit := h.limit
  units := h.units
  asserted := h.asserted

/-! ### The scan of a watch list -/

/-- A literal of the clause is in the list. -/
def SatisfiedBy (P : Propagator) (cref : ℕ) (T : List ℤ) : Prop := ∃ q ∈ P.lits cref, q ∈ T

theorem Same.satisfiedBy (hsame : Same P Q) {cref : ℕ} {T U : List ℤ} (h : P.SatisfiedBy cref T)
    (hsub : ∀ q ∈ T, q ∈ U) : Q.SatisfiedBy cref U := by
  obtain ⟨q, hq, hmem⟩ := h
  exact ⟨q, (hsame.lits cref).mem_iff.mpr hq, hsub q hmem⟩

/-- A watch list names clauses that the literal watches. -/
theorem Inv.watched_clause (h : P.Inv F n) {cref : ℕ} (hmem : cref ∈ P.watches l) :
    ∃ c, P.clauses[cref]? = some c ∧ (c.first = l ∨ c.second = l) := by
  have hpos := List.count_pos_iff.mpr hmem
  rw [h.watched l cref, watching] at hpos
  split at hpos
  · exact absurd hpos (by decide)
  · rename_i c hget
    refine ⟨c, hget, ?_⟩
    have hin := List.mem_pair.mp (List.count_pos_iff.mp hpos)
    exact hin.imp Eq.symm Eq.symm

theorem lits_of_get {cref : ℕ} {c : LongClause} (hget : P.clauses[cref]? = some c) :
    P.lits cref = c.lits := by
  rw [lits, hget]

/-- On a closed trail a clause without open literals but one has a true one. -/
theorem Closed.no_unit (hclosed : P.Closed P.trail) (h : P.Inv F n) {cref : ℕ} {c stored : LongClause}
    (hget : P.clauses[cref]? = some stored) (hperm : c.lits.Perm stored.lits)
    (hfirst : -c.first ∈ P.trail) (hothers : ∀ k ∈ c.others, -k ∈ P.trail) : c.second ∈ P.trail := by
  have hlong := hclosed.long cref (List.getElem?_eq_some_iff.mp hget).1
  rw [lits_of_get hget, ← hperm.countP_eq] at hlong
  rcases hlong with ⟨q, hq, hmem⟩ | hcount
  · rcases List.mem_cons.mp (hperm.mem_iff.mpr hq) with rfl | hq
    · exact absurd hfirst (h.neg_not_mem hmem)
    · rcases List.mem_cons.mp hq with rfl | hq
      · exact hmem
      · exact absurd (hothers q hq) (h.neg_not_mem hmem)
  · have hnone : c.others.countP (fun k => decide (-k ∉ P.trail)) = 0 :=
      List.countP_eq_zero.mpr fun k hk => by simpa using hothers k hk
    rw [LongClause.lits, List.countP_cons_of_neg (by simpa using hfirst), List.countP_cons,
      hnone] at hcount
    split at hcount <;> omega

section Entry

variable {cref : ℕ} {c stored : LongClause} (h : P.Inv F n) (hl : l ∈ P.trail)
  (hget : P.clauses[cref]? = some stored) (hfirst : c.first = -l)
  (hpair : [c.first, c.second].Perm [stored.first, stored.second]) (hothers : c.others = stored.others)

include hpair hothers in
theorem perm_of_pair : c.lits.Perm stored.lits := by
  rw [LongClause.lits, LongClause.lits, hothers]
  exact hpair.append_right stored.others

include h hget hpair hothers in
theorem Inv.entry : (∀ k ∈ c.lits, Valid n k) ∧ Entails F c.lits := by
  have hmem := (h.mem_store hget (perm_of_pair hpair hothers)) c
  exact hmem (List.mem_set (List.getElem?_eq_some_iff.mp hget).1 c)

include h hl hget hfirst hpair hothers in
/-- **The only open literal** of a clause is enqueued. -/
theorem Inv.unit_outcome (hopen : 2 ≤ P.value c.second) (hfalse : ∀ k ∈ c.others, P.value k = 1) :
    Outcome F n P (true, (P.store cref c).uncheckedEnqueue c.second) := by
  have hperm := perm_of_pair hpair hothers
  obtain ⟨hvalid, hentails⟩ := h.entry hget hpair hothers
  have hstore := h.store hget hperm hpair
  have hsecond : c.second ∈ c.lits := List.mem_cons_of_mem _ List.mem_cons_self
  have hneg : ∀ k ∈ c.others, -k ∈ P.trail := fun k hk => h.value_eq_one.mp (hfalse k hk)
  have hnegl : -c.first ∈ P.trail := by rwa [hfirst, neg_neg]
  refine ⟨hstore.enqueue (hvalid _ hsecond) hopen, ?_, fun hno => (nomatch hno), fun hclosed => ?_⟩
  · have hgrows : Grows F P (P.store cref c) := .of_same (.store hget hperm) rfl rfl
    refine hgrows.trans (.enqueue fun a ha hT => ?_)
    refine hentails.unit (fun k hk => (hvalid k hk).1) (fun k hk => ?_) ha hT
    rcases List.mem_cons.mp hk with rfl | hk
    · exact .inr hnegl
    · exact (List.mem_cons.mp hk).imp id (hneg k)
  · exact absurd (hclosed.no_unit h hget hperm hnegl hneg) (h.two_le_value.mp hopen).1

include h hl hget hfirst hpair hothers in
/-- **A clause without open or true literals** refutes the trail. -/
theorem Inv.conflict_outcome (hsecond : P.value c.second = 1) (hfalse : ∀ k ∈ c.others, P.value k = 1) :
    Outcome F n P (false, P.store cref c) := by
  have hperm := perm_of_pair hpair hothers
  obtain ⟨hvalid, hentails⟩ := h.entry hget hpair hothers
  have hneg : ∀ k ∈ c.others, -k ∈ P.trail := fun k hk => h.value_eq_one.mp (hfalse k hk)
  have hnegl : -c.first ∈ P.trail := by rwa [hfirst, neg_neg]
  have hnegs := h.value_eq_one.mp hsecond
  refine ⟨h.store hget hperm hpair, .of_same (.store hget hperm) rfl rfl, fun _ a ha => ?_,
    fun hclosed => ?_⟩
  · refine hentails.refutes (fun k hk => (hvalid k hk).1) (fun k hk => ?_) ha
    rcases List.mem_cons.mp hk with rfl | hk
    · exact hnegl
    · exact (List.mem_cons.mp hk).elim (fun heq => heq ▸ hnegs) (hneg k)
  · exact absurd hnegs (h.neg_not_mem (hclosed.no_unit h hget hperm hnegl hneg))

include h hl hget hfirst hpair hothers in
/-- **A watch moves** to an open literal. -/
theorem Inv.move_outcome {before behind : List ℤ} {w : ℤ} {kept rest : List ℕ}
    (hsplit : c.others = before ++ w :: behind) (hopen : 2 ≤ P.value w)
    (hlist : P.watches (-l) = kept ++ cref :: rest) :
    Outcome F n P (true, { (P.store cref ⟨w, c.second, before ++ -l :: behind⟩).push w cref with
      watches := Function.update ((P.store cref ⟨w, c.second, before ++ -l :: behind⟩).push w cref).watches
        (-l) (kept ++ rest) }) := by
  obtain ⟨hnot, hneg⟩ := h.two_le_value.mp hopen
  have hne : w ≠ -l := fun heq => hneg (by rwa [heq, neg_neg])
  have hperm : (LongClause.lits ⟨w, c.second, before ++ -l :: behind⟩).Perm stored.lits := by
    refine List.Perm.trans ?_ (perm_of_pair hpair hothers)
    rw [LongClause.lits, LongClause.lits, hfirst, hsplit]
    refine List.perm_iff_count.mpr fun k => ?_
    simp only [List.count_cons, List.count_append]
    omega
  have hsame := Same.store hget hperm
  refine ⟨h.move hget hperm (hfirst ▸ hpair) hne hlist, ⟨⟨⟨rfl, rfl, rfl, hsame.size, hsame.lits⟩,
    ⟨[], (List.append_nil _).symm⟩, fun k i hi => ?_⟩, fun _ _ => id⟩, fun hno => (nomatch hno),
    fun _ => ⟨rfl, rfl⟩⟩
  replace hi : i ∈ Function.update (Function.update P.watches w (P.watches w ++ [cref])) (-l)
    (kept ++ rest) k := hi
  rw [Function.update_apply, Function.update_apply] at hi
  split at hi
  · rename_i hk
    rw [hk, hlist]
    exact .inl ((List.mem_append.mp hi).elim (List.mem_append_left _)
      fun hi => List.mem_append_right _ (List.mem_cons_of_mem _ hi))
  · split at hi
    · rename_i hk
      exact .inr (hk ▸ ⟨hnot, hneg⟩)
    · exact .inl hi

end Entry

theorem scanWatches_outcome {kept rest : List ℕ} (h : P.Inv F n) (hl : l ∈ P.trail)
    (hlist : P.watches (-l) = kept ++ rest) (hkept : ∀ cref ∈ kept, P.SatisfiedBy cref P.trail) :
    Outcome F n P (scanWatches l P kept rest) ∧
      (scanWatches l P kept rest).2.trailPos = P.trailPos ∧
      ((scanWatches l P kept rest).1 = true → ∀ cref ∈ (scanWatches l P kept rest).2.watches (-l),
        (scanWatches l P kept rest).2.SatisfiedBy cref (scanWatches l P kept rest).2.trail) := by
  induction rest generalizing P kept with
  | nil =>
      refine ⟨.refl h, rfl, fun _ cref hcref => hkept cref ?_⟩
      have hcref' : cref ∈ P.watches (-l) := hcref
      rwa [hlist, List.append_nil] at hcref'
  | cons cref rest ih =>
      have hmem : cref ∈ P.watches (-l) := by
        rw [hlist]
        exact List.mem_append_right _ List.mem_cons_self
      obtain ⟨stored, hget, hwatch⟩ := h.watched_clause hmem
      obtain ⟨c, hfirst, hpair, hothers, hvisit⟩ := visit_cases hget hwatch
      have hperm := perm_of_pair hpair hothers
      -- an entry that is kept is satisfied in the state that the scan goes on from
      have hkeep : ∀ Q : Propagator, Outcome F n P (true, Q) → Q.watches = P.watches →
          Q.trailPos = P.trailPos → Q.SatisfiedBy cref Q.trail →
          Outcome F n P (scanWatches l Q (kept ++ [cref]) rest) ∧
            (scanWatches l Q (kept ++ [cref]) rest).2.trailPos = P.trailPos ∧
            ((scanWatches l Q (kept ++ [cref]) rest).1 = true →
              ∀ i ∈ (scanWatches l Q (kept ++ [cref]) rest).2.watches (-l),
              (scanWatches l Q (kept ++ [cref]) rest).2.SatisfiedBy i
                (scanWatches l Q (kept ++ [cref]) rest).2.trail) := by
        intro Q hone hwatches hpos hsat
        have hrest : Q.watches (-l) = (kept ++ [cref]) ++ rest := by
          rw [hwatches, hlist]
          simp
        obtain ⟨hout, hhead, hdone⟩ := ih hone.inv (hone.grows.mem hl) hrest fun i hi => by
            rcases List.mem_append.mp hi with hi | hi
            · exact hone.grows.toSame.satisfiedBy (hkept i hi) fun q hq => hone.grows.mem hq
            · exact List.mem_singleton.mp hi ▸ hsat
        exact ⟨hone.trans hout, hhead.trans hpos, hdone⟩
      rw [scanWatches]
      generalize P.visit l cref = r at hvisit
      cases hvisit with
      | satisfied q hq hv =>
          have hsame := Same.store hget hperm
          refine hkeep _ (.of_same (h.store hget hperm hpair) hsame rfl rfl) rfl rfl ⟨q, ?_, ?_⟩
          · rw [(hsame.lits cref).mem_iff, lits_of_get hget]
            exact hperm.mem_iff.mp hq
          · exact h.value_eq_zero.mp hv
      | unit hopen hfalse =>
          refine hkeep _ (h.unit_outcome hl hget hfirst hpair hothers hopen hfalse) rfl rfl
            ⟨c.second, ?_, List.mem_append_right _ List.mem_cons_self⟩
          have hsame := Same.store hget hperm
          show c.second ∈ (P.store cref c).lits cref
          rw [(hsame.lits cref).mem_iff, lits_of_get hget]
          exact hperm.mem_iff.mp (List.mem_cons_of_mem _ List.mem_cons_self)
      | conflict hsecond hfalse =>
          exact ⟨h.conflict_outcome hl hget hfirst hpair hothers hsecond hfalse, rfl,
            fun hno => nomatch hno⟩
      | move before w behind hsplit hopen =>
          have hone := h.move_outcome hl hget hfirst hpair hothers hsplit hopen hlist
          obtain ⟨hout, hhead, hdone⟩ := ih hone.inv hl (Function.update_self _ _ _) fun i hi =>
            hone.grows.toSame.satisfiedBy (hkept i hi) fun q hq => hq
          exact ⟨hone.trans hout, hhead, hdone⟩

/-! ### Supported trails -/

/-- What the first `h` literals of the trail imply, and what makes the clauses true that they could have
made units, is among its first `b` literals. -/
structure Supported (P : Propagator) (h b : ℕ) : Prop where
  binary : ∀ p ∈ P.trail.take h, ∀ k ∈ P.binary p, k ∈ P.trail.take b
  watched : ∀ p ∈ P.trail.take h, ∀ cref ∈ P.watches (-p), P.SatisfiedBy cref (P.trail.take b)

theorem Supported.mono {h b b' : ℕ} (hs : P.Supported h b) (hb : b ≤ b') : P.Supported h b' where
  binary p hp k hk := List.take_subset_take_left P.trail hb (hs.binary p hp k hk)
  watched p hp cref hcref := (Same.refl P).satisfiedBy (hs.watched p hp cref hcref) fun _ hq =>
    List.take_subset_take_left P.trail hb hq

/-- Extending the trail keeps what supports a part of it. -/
theorem Supported.appends {h b : ℕ} (hs : P.Supported h b) (hg : Appends P Q) (hh : h ≤ P.trail.length)
    (hb : b ≤ P.trail.length) : Q.Supported h b where
  binary := by
    rw [hg.take hh, hg.take hb, hg.binary]
    exact hs.binary
  watched p hp cref hcref := by
    rw [hg.take hh] at hp
    rw [hg.take hb]
    rcases hg.watches (-p) cref hcref with hold | ⟨-, hneg⟩
    · exact hg.toSame.satisfiedBy (hs.watched p hp cref hold) fun _ hq => hq
    · rw [neg_neg] at hneg
      exact absurd (List.mem_of_mem_take hp) hneg

/-- One more literal is processed. -/
theorem Supported.next {pos : ℕ} (hs : P.Supported pos P.trail.length) (hl : P.trail[pos]? = some l)
    (hbinary : ∀ k ∈ P.binary l, k ∈ P.trail)
    (hwatched : ∀ cref ∈ P.watches (-l), P.SatisfiedBy cref P.trail) :
    P.Supported (pos + 1) P.trail.length := by
  have hmem : ∀ p ∈ P.trail.take (pos + 1), p ∈ P.trail.take pos ∨ p = l := by
    intro p hp
    rw [List.take_add_one, hl, List.mem_append] at hp
    exact hp.imp id List.mem_singleton.mp
  constructor
  · intro p hp k hk
    rcases hmem p hp with hp | rfl
    · exact hs.binary p hp k hk
    · rw [List.take_length]
      exact hbinary k hk
  · intro p hp cref hcref
    rcases hmem p hp with hp | rfl
    · exact hs.watched p hp cref hcref
    · rw [List.take_length]
      exact hwatched cref hcref

/-- **A supported trail is closed.** -/
theorem Supported.closed (hs : P.Supported P.trail.length P.trail.length) (h : P.Inv F n) :
    P.Closed P.trail := by
  have hall := List.take_length (l := P.trail)
  have hbinary := hs.binary
  have hwatched := hs.watched
  rw [hall] at hbinary hwatched
  refine ⟨hbinary, fun cref hcref => ?_⟩
  obtain ⟨c, hget⟩ : ∃ c, P.clauses[cref]? = some c := ⟨_, List.getElem?_eq_getElem hcref⟩
  have hwatch : ∀ w, w = c.first ∨ w = c.second → -w ∈ P.trail →
      ∃ q ∈ P.lits cref, q ∈ P.trail := by
    intro w hw hneg
    refine hwatched (-w) hneg cref ?_
    rw [neg_neg, ← List.count_pos_iff, h.watched, watching, hget, List.count_pos_iff, List.mem_pair]
    exact hw
  rw [or_iff_not_imp_left]
  intro hnone
  have hfirst : -c.first ∉ P.trail := fun hneg => hnone (hwatch _ (.inl rfl) hneg)
  have hsecond : -c.second ∉ P.trail := fun hneg => hnone (hwatch _ (.inr rfl) hneg)
  rw [lits_of_get hget, LongClause.lits, List.countP_cons_of_pos (by simpa using hfirst),
    List.countP_cons_of_pos (by simpa using hsecond)]
  omega

/-! ### The loop -/

theorem propagateLit_outcome (h : P.Inv F n) (hl : l ∈ P.trail) :
    Outcome F n P (P.propagateLit l) ∧ (P.propagateLit l).2.trailPos = P.trailPos ∧
      ((P.propagateLit l).1 = true → (∀ k ∈ P.binary l, k ∈ (P.propagateLit l).2.trail) ∧
        ∀ cref ∈ (P.propagateLit l).2.watches (-l),
          (P.propagateLit l).2.SatisfiedBy cref (P.propagateLit l).2.trail) := by
  have hbin := propagateBinary_outcome h hl (fun k hk => hk)
  unfold propagateLit
  generalize P.propagateBinary (P.binary l) = r at hbin
  obtain ⟨ok, Q⟩ := r
  obtain ⟨hout, hpos, hdone⟩ := hbin
  cases ok with
  | false => exact ⟨hout, hpos, fun hno => nomatch hno⟩
  | true =>
      obtain ⟨hscan, hpos', hdone'⟩ := scanWatches_outcome hout.inv (hout.grows.mem hl)
        (show Q.watches (-l) = [] ++ Q.watches (-l) from rfl) fun i hi => absurd hi List.not_mem_nil
      exact ⟨hout.trans hscan, hpos'.trans hpos,
        fun hok => ⟨fun k hk => hscan.grows.mem (hdone rfl k hk), hdone' hok⟩⟩

/-- What a run of the loop of `propagate` from `P` ends with. -/
structure Propagated (F : List Clause) (n : ℕ) (P : Propagator) (r : Bool × Propagator) : Prop
    extends Outcome F n P r where
  head : P.trailPos ≤ r.2.trailPos ∧ r.2.trailPos ≤ r.2.trail.length
  closed : r.1 = true → r.2.trailPos = r.2.trail.length ∧
    r.2.Supported r.2.trail.length r.2.trail.length

theorem propagateLoop_propagated (fuel : ℕ) (h : P.Inv F n) (hpos : P.trailPos ≤ P.trail.length)
    (hsup : P.Supported P.trailPos P.trail.length) (hfuel : n < P.trailPos + fuel) :
    Propagated F n P (propagateLoop fuel P) := by
  induction fuel generalizing P with
  | zero => exact absurd h.length_le (by omega)
  | succ fuel ih =>
      rw [propagateLoop]
      split
      · rename_i hnone
        have hend := List.getElem?_eq_none_iff.mp hnone
        have heq : P.trailPos = P.trail.length := by omega
        exact ⟨.refl h, ⟨le_refl _, hpos⟩, fun _ => ⟨heq, heq ▸ hsup⟩⟩
      · rename_i l hl
        have hlt := (List.getElem?_eq_some_iff.mp hl).1
        have hnext : Outcome F n P (true, { P with trailPos := P.trailPos + 1 }) :=
          .of_same (h.of_eq rfl rfl rfl rfl rfl rfl rfl rfl) (.of_eq rfl rfl rfl rfl) rfl rfl
        obtain ⟨hout, hhead, hdone⟩ := propagateLit_outcome hnext.inv (List.mem_of_getElem? hl)
        have hgrows := (hnext.trans hout).grows
        have hone := hnext.trans hout
        generalize propagateLit { P with trailPos := P.trailPos + 1 } l = r at *
        obtain ⟨ok, Q⟩ := r
        replace hhead : Q.trailPos = P.trailPos + 1 := hhead
        obtain ⟨more, htrail⟩ := hgrows.trail
        have hlen : P.trail.length ≤ Q.trail.length := hgrows.length_le
        cases ok with
        | false =>
            refine ⟨hone, ⟨?_, ?_⟩, fun hno => nomatch hno⟩
            · show P.trailPos ≤ Q.trailPos
              omega
            · show Q.trailPos ≤ Q.trail.length
              omega
        | true =>
            obtain ⟨hbinary, hwatched⟩ := hdone rfl
            have hget : Q.trail[P.trailPos]? = some l := by
              rw [show Q.trail = P.trail ++ more from htrail, List.getElem?_append_left hlt]
              exact hl
            have hsup' : Q.Supported Q.trailPos Q.trail.length := by
              rw [hhead]
              refine ((hsup.appends hgrows.toAppends hpos (le_refl _)).mono hlen).next hget ?_ hwatched
              rw [show Q.binary = P.binary from hgrows.binary]
              exact hbinary
            have hinv : Q.Inv F n := hone.inv
            have hlater := ih hinv (by omega) hsup' (by omega)
            refine ⟨hone.trans hlater.toOutcome, ⟨?_, hlater.head.2⟩, hlater.closed⟩
            exact (show P.trailPos ≤ Q.trailPos by omega).trans hlater.head.1

/-- The state between two calls of `propagate`: what is processed is supported. -/
structure Ready (F : List Clause) (n : ℕ) (P : Propagator) : Prop extends P.Inv F n where
  head : P.trailPos ≤ P.trail.length
  supported : P.Supported P.trailPos P.trail.length

/-- **What `propagate` does.**  It extends the trail by implied literals.  Without a conflict the trail is
closed, after a conflict no model extends it, and a closed trail stays as it is. -/
theorem Ready.propagate (h : P.Ready F n) : Propagated F n P P.propagate := by
  have hnb := h.nbVar
  exact propagateLoop_propagated _ h.toInv h.head h.supported (by omega)

end Propagator

end HydraSAT.CubeGenerator.Reducer
