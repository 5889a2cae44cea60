import HydraSAT.CubeGenerator.ReducerPropagation

/-!
# Loading a formula into the vendored propagator

The constructor adds the clauses one after the other.  A clause is reduced by the units found so far, and a
unit is propagated at once; a conflict sets `m_isUnsat` and ends the loading.

* `Propagator.Built`: what loading keeps while there is no conflict;
* `new_loaded`: the loaded propagator, and what it says about the formula;
* `Represents`: a clause that was added is satisfied by a unit, or a part of it is stored.
-/

namespace HydraSAT.CubeGenerator.Reducer

open HydraSAT.Lib

namespace Propagator

variable {F : List Clause} {n : ℕ} {P Q : Propagator} {l : ℤ} {clause : Clause}

/-! ### Reducing a clause -/

/-- What is left of a clause is open, and the rest of it is false. -/
theorem reduceClause_some (h : P.Inv F n) {r : Clause} (hr : P.reduceClause clause = some r) :
    r.Sublist clause ∧ (∀ k ∈ r, 2 ≤ P.value k) ∧ ∀ k ∈ clause, k ∈ r ∨ -k ∈ P.trail := by
  induction clause generalizing r with
  | nil =>
      obtain rfl := Option.some.inj hr
      exact ⟨List.Sublist.refl _, fun k hk => absurd hk List.not_mem_nil,
        fun k hk => absurd hk List.not_mem_nil⟩
  | cons k ks ih =>
      rw [reduceClause] at hr
      split at hr
      · rename_i hopen
        obtain ⟨r', hr', rfl⟩ := Option.map_eq_some_iff.mp hr
        obtain ⟨hsub, hall, hrest⟩ := ih hr'
        refine ⟨hsub.cons_cons k, List.forall_mem_cons.mpr ⟨hopen, hall⟩, ?_⟩
        exact List.forall_mem_cons.mpr ⟨.inl List.mem_cons_self,
          fun j hj => (hrest j hj).imp (List.mem_cons_of_mem k) id⟩
      · split at hr
        · exact nomatch hr
        · obtain ⟨hsub, hall, hrest⟩ := ih hr
          refine ⟨hsub.cons k, hall, List.forall_mem_cons.mpr ⟨.inr (h.value_eq_one.mp ?_), hrest⟩⟩
          omega

theorem reduceClause_none (h : P.Inv F n) (hr : P.reduceClause clause = none) :
    ∃ k ∈ clause, k ∈ P.trail := by
  induction clause with
  | nil => exact nomatch hr
  | cons k ks ih =>
      rw [reduceClause] at hr
      split at hr
      · obtain ⟨j, hj, htrue⟩ := ih (Option.map_eq_none_iff.mp hr)
        exact ⟨j, List.mem_cons_of_mem k hj, htrue⟩
      · split at hr
        · rename_i htrue
          exact ⟨k, List.mem_cons_self, h.value_eq_zero.mp htrue⟩
        · obtain ⟨j, hj, htrue⟩ := ih hr
          exact ⟨j, List.mem_cons_of_mem k hj, htrue⟩

/-! ### Adding a clause -/

/-- The clause has a unit, or a stored clause is a part of it. -/
def Represents (P : Propagator) (clause : Clause) : Prop :=
  (∃ k ∈ clause, k ∈ P.trail) ∨ (∃ a ∈ clause, ∃ b ∈ clause, b ∈ P.binary (-a)) ∨
    ∃ cref < P.clauses.length, ∀ k ∈ P.lits cref, k ∈ clause

/-- **What loading keeps** as long as there is no conflict. -/
structure Built (F : List Clause) (n : ℕ) (P : Propagator) : Prop extends P.Ready F n where
  sat : P.isUnsat = false
  noLimit : P.trailLimUnit = 0
  done : P.trailPos = P.trail.length
  entailed : ∀ a, formulaTrue a F = true → cubeTrue a P.trail = true

theorem Built.empty (F : List Clause) (n : ℕ) : (Propagator.empty n).Built F n where
  nbVar := rfl
  binary _ k hk := absurd hk List.not_mem_nil
  clauses _ hc := absurd hc List.not_mem_nil
  watched _ _ := rfl
  valid _ hl := absurd hl List.not_mem_nil
  nodup := List.nodup_nil
  assignTrue _ := iff_of_false (by simp [Propagator.empty]) List.not_mem_nil
  assignFalse _ := iff_of_false (by simp [Propagator.empty]) List.not_mem_nil
  limit := le_refl 0
  units _ _ := rfl
  asserted := rfl
  head := le_refl 0
  supported := ⟨fun _ hp => absurd hp List.not_mem_nil, fun _ hp => absurd hp List.not_mem_nil⟩
  sat := rfl
  noLimit := rfl
  done := rfl
  entailed _ _ := rfl

/-- Enqueuing a literal before the next `propagate`. -/
theorem Ready.enqueue (h : P.Ready F n) (hl : Valid n l) (hopen : 2 ≤ P.value l) :
    (P.uncheckedEnqueue l).Ready F n where
  toInv := h.toInv.enqueue hl hopen
  head := by
    have hhead := h.head
    show P.trailPos ≤ (P.trail ++ [l]).length
    rw [List.length_append]
    omega
  supported := by
    have hsup := h.supported
    have hpart : (P.uncheckedEnqueue l).trail.take P.trailPos = P.trail.take P.trailPos :=
      List.take_append_of_le_length h.head
    have hall : (P.uncheckedEnqueue l).trail.take (P.uncheckedEnqueue l).trail.length =
        P.trail ++ [l] := List.take_length
    refine ⟨fun p hp k hk => ?_, fun p hp cref hcref => ?_⟩
    · rw [hall]
      have hmem := hsup.binary p (hpart ▸ hp) k hk
      rw [List.take_length] at hmem
      exact List.mem_append_left _ hmem
    · rw [hall]
      have hmem := hsup.watched p (hpart ▸ hp) cref hcref
      rw [List.take_length] at hmem
      exact (Same.of_eq rfl rfl rfl rfl).satisfiedBy hmem fun q hq => List.mem_append_left _ hq

/-- **A unit** is enqueued and propagated. -/
theorem Built.addUnit (h : P.Built F n) (hl : Valid n l) (hopen : 2 ≤ P.value l)
    (hunit : ∀ a, formulaTrue a F = true → litTrue a l = true) :
    ((P.uncheckedEnqueue l).propagate.1 = true → Built F n (P.uncheckedEnqueue l).propagate.2) ∧
      ((P.uncheckedEnqueue l).propagate.1 = false → ∀ a, formulaTrue a F = false) ∧
      Grows F (P.uncheckedEnqueue l) (P.uncheckedEnqueue l).propagate.2 := by
  have hready := h.toReady.enqueue hl hopen
  have hprop := hready.propagate
  have hentailed : ∀ a, formulaTrue a F = true →
      cubeTrue a (P.uncheckedEnqueue l).trail = true := by
    intro a ha
    show cubeTrue a (P.trail ++ [l]) = true
    rw [cubeTrue_snoc, h.entailed a ha, hunit a ha]
    rfl
  refine ⟨fun hok => ?_, fun hno a => ?_, hprop.grows⟩
  · obtain ⟨hhead, hsup⟩ := hprop.closed hok
    refine ⟨⟨hprop.inv, hprop.head.2, hhead ▸ hsup⟩, hprop.grows.isUnsat.trans h.sat,
      hprop.grows.trailLimUnit.trans h.noLimit, hhead, fun a ha => ?_⟩
    rw [hprop.grows.cubeTrue_eq ha]
    exact hentailed a ha
  · by_contra ha
    rw [Bool.not_eq_false] at ha
    have hnone := hprop.refuted hno a ha
    rw [hprop.grows.cubeTrue_eq ha, hentailed a ha] at hnone
    exact nomatch hnone

/-- **A binary clause** of two open literals. -/
theorem Built.addBinary (h : P.Built F n) {a b : ℤ} (ha : Valid n a) (hb : Valid n b)
    (hopena : 2 ≤ P.value a) (hopenb : 2 ≤ P.value b) (hentails : Entails F [a, b]) :
    (P.addBinary a b).Built F n ∧ b ∈ (P.addBinary a b).binary (-a) ∧
      ∀ l, ∀ k ∈ P.binary l, k ∈ (P.addBinary a b).binary l := by
  have happly : ∀ l k, k ∈ (P.addBinary a b).binary l ↔
      k ∈ P.binary l ∨ (l = -a ∧ k = b) ∨ (l = -b ∧ k = a) := by
    intro l k
    show k ∈ Function.update (Function.update P.binary (-a) (P.binary (-a) ++ [b])) (-b)
      (Function.update P.binary (-a) (P.binary (-a) ++ [b]) (-b) ++ [a]) l ↔ _
    simp only [Function.update_apply]
    split_ifs with h₁ h₂ h₃ <;> simp_all
  have hswap : Entails F [b, a] := fun x hx => by
    have htrue := hentails x hx
    simp only [clauseTrue, List.any_cons, List.any_nil, Bool.or_false] at htrue ⊢
    rwa [Bool.or_comm]
  have hnota := h.two_le_value.mp hopena
  have hnotb := h.two_le_value.mp hopenb
  have hsup := h.supported
  refine ⟨⟨⟨⟨h.nbVar, fun l k hk => ?_, h.clauses, h.watched, h.valid, h.nodup, h.assignTrue,
    h.assignFalse, h.limit, h.units, h.asserted⟩, h.head, ⟨fun p hp k hk => ?_, hsup.watched⟩⟩,
    h.sat, h.noLimit, h.done, h.entailed⟩, (happly _ _).mpr (.inr (.inl ⟨rfl, rfl⟩)),
    fun l k hk => (happly l k).mpr (.inl hk)⟩
  · rcases (happly l k).mp hk with hold | ⟨rfl, rfl⟩ | ⟨rfl, rfl⟩
    · exact h.binary l k hold
    · rw [neg_neg]
      exact ⟨hb, hentails⟩
    · rw [neg_neg]
      exact ⟨ha, hswap⟩
  · have hmem : p ∈ P.trail := List.mem_of_mem_take hp
    rcases (happly p k).mp hk with hold | ⟨rfl, rfl⟩ | ⟨rfl, rfl⟩
    · exact hsup.binary p hp k hold
    · exact absurd hmem hnota.2
    · exact absurd hmem hnotb.2

theorem getElem?_addLong {c : LongClause} {cref : ℕ} :
    (P.addLong c).clauses[cref]? =
      if cref = P.clauses.length then some c else P.clauses[cref]? := by
  show (P.clauses ++ [c])[cref]? = _
  by_cases hi : cref = P.clauses.length
  · rw [if_pos hi, hi, List.getElem?_concat_length]
  · rw [if_neg hi]
    rcases Nat.lt_or_gt_of_ne hi with hlt | hgt
    · exact List.getElem?_append_left hlt
    · rw [List.getElem?_eq_none (by rw [List.length_append, List.length_singleton]; omega),
        List.getElem?_eq_none (by omega)]

theorem watches_addLong (P : Propagator) (c : LongClause) (l : ℤ) :
    (P.addLong c).watches l = P.watches l ++
      List.replicate ([c.first, c.second].count l) P.clauses.length := by
  show Function.update (Function.update P.watches c.first (P.watches c.first ++ [P.clauses.length]))
    c.second (Function.update P.watches c.first (P.watches c.first ++ [P.clauses.length]) c.second ++
      [P.clauses.length]) l = _
  simp only [Function.update_apply, List.count_cons, List.count_nil, beq_iff_eq]
  by_cases h₁ : l = c.second
  · subst h₁
    by_cases h₂ : c.second = c.first
    · simp [← h₂, List.replicate]
    · simp [h₂, Ne.symm h₂]
  · by_cases h₂ : l = c.first
    · subst h₂
      simp [h₁, Ne.symm h₁]
    · simp [h₁, h₂, Ne.symm h₁, Ne.symm h₂]

/-- **A clause of three or more** open literals is stored and attached. -/
theorem Built.addLong (h : P.Built F n) {c : LongClause} (hvalid : ∀ k ∈ c.lits, Valid n k)
    (hopen : ∀ k ∈ c.lits, 2 ≤ P.value k) (hentails : Entails F c.lits) :
    (P.addLong c).Built F n := by
  have hsup := h.supported
  have hnone : P.clauses[P.clauses.length]? = none := List.getElem?_eq_none (le_refl _)
  have hnew : ∀ l, P.clauses.length ∉ P.watches l := by
    intro l hmem
    obtain ⟨d, hget, -⟩ := h.watched_clause hmem
    rw [hnone] at hget
    exact nomatch hget
  have hold : ∀ l, ∀ cref ∈ P.watches l, cref ≠ P.clauses.length := fun l cref hmem heq =>
    hnew l (heq ▸ hmem)
  refine ⟨⟨⟨h.nbVar, h.binary, fun d hd => ?_, fun l cref => ?_, h.valid, h.nodup, h.assignTrue,
    h.assignFalse, h.limit, h.units, h.asserted⟩, h.head, ⟨hsup.binary, fun p hp cref hcref => ?_⟩⟩,
    h.sat, h.noLimit, h.done, h.entailed⟩
  · rcases List.mem_append.mp hd with hd | hd
    · exact h.clauses d hd
    · rw [List.mem_singleton.mp hd]
      exact ⟨hvalid, hentails⟩
  · rw [watches_addLong, List.count_append, h.watched, watching, watching, getElem?_addLong]
    by_cases hi : cref = P.clauses.length
    · rw [if_pos hi, hi, hnone, List.count_replicate_self]
      exact Nat.zero_add _
    · rw [if_neg hi, List.count_replicate, if_neg (by simpa using Ne.symm hi), Nat.add_zero]
  · rw [watches_addLong] at hcref
    have hmem : p ∈ P.trail := List.mem_of_mem_take hp
    rcases List.mem_append.mp hcref with hcref | hcref
    · obtain ⟨q, hq, htake⟩ := hsup.watched p hp cref hcref
      refine ⟨q, ?_, htake⟩
      rw [lits, getElem?_addLong, if_neg (hold _ cref hcref)]
      exact hq
    · -- the watches are open, so that their negations are not on the trail
      have hpos : 0 < [c.first, c.second].count (-p) := by
        rw [List.mem_replicate] at hcref
        exact Nat.pos_of_ne_zero hcref.1
      have hlit : -p ∈ c.lits := by
        rcases List.mem_pair.mp (List.count_pos_iff.mp hpos) with heq | heq
        · exact heq ▸ List.mem_cons_self
        · exact heq ▸ List.mem_cons_of_mem _ List.mem_cons_self
      have hneg := (h.two_le_value.mp (hopen _ hlit)).2
      rw [neg_neg] at hneg
      exact absurd hmem hneg

/-- Loading only adds. -/
structure Extended (P Q : Propagator) : Prop where
  trail : ∀ k ∈ P.trail, k ∈ Q.trail
  binary : ∀ l, ∀ k ∈ P.binary l, k ∈ Q.binary l
  size : P.clauses.length ≤ Q.clauses.length
  lits : ∀ cref < P.clauses.length, (Q.lits cref).Perm (P.lits cref)

theorem Extended.refl (P : Propagator) : Extended P P :=
  ⟨fun _ => id, fun _ _ => id, le_refl _, fun _ _ => List.Perm.refl _⟩

theorem Extended.trans {R : Propagator} (h : Extended P Q) (h' : Extended Q R) : Extended P R where
  trail k hk := h'.trail k (h.trail k hk)
  binary l k hk := h'.binary l k (h.binary l k hk)
  size := h.size.trans h'.size
  lits cref hcref := (h'.lits cref (lt_of_lt_of_le hcref h.size)).trans (h.lits cref hcref)

theorem Represents.extended (hrep : P.Represents clause) (h : Extended P Q) : Q.Represents clause := by
  rcases hrep with ⟨k, hk, hmem⟩ | ⟨a, ha, b, hb, hmem⟩ | ⟨cref, hcref, hall⟩
  · exact .inl ⟨k, hk, h.trail k hmem⟩
  · exact .inr (.inl ⟨a, ha, b, hb, h.binary _ b hmem⟩)
  · refine .inr (.inr ⟨cref, lt_of_lt_of_le hcref h.size, fun k hk => hall k ?_⟩)
    exact (h.lits cref hcref).mem_iff.mp hk

/-- What adding a clause leads to. -/
structure Added (F : List Clause) (n : ℕ) (P : Propagator) (clause : Clause) (Q : Propagator) : Prop where
  built : Q.isUnsat = false → Q.Built F n ∧ Extended P Q ∧ Q.Represents clause
  refuted : Q.isUnsat = true → ∀ a, formulaTrue a F = false

/-- **Adding a clause** either refutes the formula or makes the propagator represent the clause, too. -/
theorem Built.addClause (h : P.Built F n) (hvalid : ∀ k ∈ clause, Valid n k)
    (hentails : Entails F clause) : Added F n P clause (P.addClause clause) := by
  have hz : ∀ k ∈ clause, k ≠ 0 := fun k hk => (hvalid k hk).1
  unfold Propagator.addClause
  rw [if_neg (by rw [h.sat]; decide)]
  -- what is left of the clause follows from the formula, too
  have hrest : ∀ r, P.reduceClause clause = some r → Entails F r := by
    intro r hr a ha
    obtain ⟨-, -, hcover⟩ := reduceClause_some h.toInv hr
    obtain ⟨k, hk, htrue⟩ := List.any_eq_true.mp (hentails a ha)
    rcases hcover k hk with hmem | hneg
    · exact List.any_eq_true.mpr ⟨k, hmem, htrue⟩
    · have hfalse := cubeTrue_iff.mp (h.entailed a ha) (-k) hneg
      rw [litTrue_neg (hz k hk), htrue] at hfalse
      exact nomatch hfalse
  split
  · rename_i hr
    exact ⟨fun _ => ⟨h, .refl P, .inl (reduceClause_none h.toInv hr)⟩, fun hno => by
      rw [h.sat] at hno
      exact nomatch hno⟩
  · rename_i hr
    refine ⟨fun hno => (nomatch hno), fun _ a => ?_⟩
    by_contra ha
    rw [Bool.not_eq_false] at ha
    exact nomatch hrest [] hr a ha
  · rename_i l hr
    obtain ⟨hsub, hopen, -⟩ := reduceClause_some h.toInv hr
    have hlmem : l ∈ clause := hsub.subset List.mem_cons_self
    have hl := hvalid l hlmem
    have hlopen := hopen l List.mem_cons_self
    rw [if_pos (two_le_value_iff.mp hlopen)]
    have hunit : ∀ a, formulaTrue a F = true → litTrue a l = true := by
      intro a ha
      have htrue := hrest [l] hr a ha
      simpa [clauseTrue] using htrue
    obtain ⟨hok, hno, hgrows⟩ := h.addUnit hl hlopen hunit
    generalize (P.uncheckedEnqueue l).propagate = r at hok hno hgrows
    obtain ⟨ok, Q⟩ := r
    cases ok with
    | false => exact ⟨fun hsat => (nomatch hsat), fun _ => hno rfl⟩
    | true =>
        have hbuilt : Q.Built F n := hok rfl
        have hset : { Q with isUnsat := !true } = Q := by
          rw [show (!true) = Q.isUnsat from hbuilt.sat.symm]
        refine ⟨fun _ => ?_, fun hunsat => nomatch hunsat⟩
        show Propagator.Built F n { Q with isUnsat := !true } ∧ Extended P { Q with isUnsat := !true } ∧
          Represents { Q with isUnsat := !true } clause
        rw [hset]
        refine ⟨hbuilt, ⟨fun k hk => hgrows.mem (List.mem_append_left _ hk), fun j k hk => ?_,
          hgrows.size.ge, fun cref _ => hgrows.lits cref⟩,
          .inl ⟨l, hlmem, hgrows.mem (List.mem_append_right _ List.mem_cons_self)⟩⟩
        rw [show Q.binary = P.binary from hgrows.binary]
        exact hk
  · rename_i a b hr
    obtain ⟨hsub, hopen, -⟩ := reduceClause_some h.toInv hr
    have ha : a ∈ clause := hsub.subset List.mem_cons_self
    have hb : b ∈ clause := hsub.subset (List.mem_cons_of_mem _ List.mem_cons_self)
    obtain ⟨hbuilt, hnew, hold⟩ := h.addBinary (hvalid a ha) (hvalid b hb)
      (hopen a List.mem_cons_self) (hopen b (List.mem_cons_of_mem _ List.mem_cons_self)) (hrest _ hr)
    refine ⟨fun _ => ⟨hbuilt, ⟨fun _ => id, hold, le_refl _, fun _ _ => List.Perm.refl _⟩,
      .inr (.inl ⟨a, ha, b, hb, hnew⟩)⟩, fun hno => ?_⟩
    exact absurd (h.sat.symm.trans hno) (by decide)
  · rename_i a b others _ hr
    obtain ⟨hsub, hopen, -⟩ := reduceClause_some h.toInv hr
    have hlits : ∀ k ∈ LongClause.lits ⟨a, b, others⟩, k ∈ clause := fun k hk => hsub.subset hk
    have hbuilt := h.addLong (fun k hk => hvalid k (hlits k hk)) hopen (hrest _ hr)
    have hsize : (P.addLong ⟨a, b, others⟩).clauses.length = P.clauses.length + 1 :=
      List.length_append
    refine ⟨fun _ => ⟨hbuilt, ⟨fun _ => id, fun _ _ => id, by omega, fun cref hcref => ?_⟩,
      .inr (.inr ⟨P.clauses.length, by omega, ?_⟩)⟩, fun hno => ?_⟩
    · rw [lits, getElem?_addLong, if_neg (by omega)]
      exact List.Perm.refl _
    · rw [lits, getElem?_addLong, if_pos rfl]
      exact hlits
    · exact absurd (h.sat.symm.trans hno) (by decide)

theorem foldl_addClause_of_unsat (hunsat : P.isUnsat = true) (cs : List Clause) :
    cs.foldl Propagator.addClause P = P := by
  induction cs with
  | nil => rfl
  | cons c cs ih =>
      have hone : P.addClause c = P := by
        rw [Propagator.addClause, if_pos hunsat]
      rw [List.foldl_cons, hone, ih]

/-- Adding the clauses one after the other. -/
theorem Built.addClauses (h : P.Built F n) {cs : List Clause}
    (hcs : ∀ c ∈ cs, (∀ k ∈ c, Valid n k) ∧ Entails F c) :
    ((cs.foldl Propagator.addClause P).isUnsat = false →
      (cs.foldl Propagator.addClause P).Built F n ∧ Extended P (cs.foldl Propagator.addClause P) ∧
      ∀ c ∈ cs, (cs.foldl Propagator.addClause P).Represents c) ∧
    ((cs.foldl Propagator.addClause P).isUnsat = true → ∀ a, formulaTrue a F = false) := by
  induction cs generalizing P with
  | nil =>
      refine ⟨fun _ => ⟨h, .refl P, fun c hc => absurd hc List.not_mem_nil⟩, fun hno => ?_⟩
      exact absurd (h.sat.symm.trans hno) (by decide)
  | cons c cs ih =>
      obtain ⟨⟨hvalid, hentails⟩, hcs⟩ := List.forall_mem_cons.mp hcs
      have hadd := h.addClause hvalid hentails
      rw [List.foldl_cons]
      cases hunsat : (P.addClause c).isUnsat with
      | true =>
          rw [foldl_addClause_of_unsat hunsat, hunsat]
          exact ⟨fun hno => (nomatch hno), fun _ => hadd.refuted hunsat⟩
      | false =>
          obtain ⟨hbuilt, hext, hrep⟩ := hadd.built hunsat
          obtain ⟨hok, hno⟩ := ih hbuilt hcs
          refine ⟨fun hsat => ?_, hno⟩
          obtain ⟨hlater, hext', hall⟩ := hok hsat
          exact ⟨hlater, hext.trans hext',
            List.forall_mem_cons.mpr ⟨hrep.extended hext', hall⟩⟩

/-- **The loaded propagator**: its trail are the units of the formula, and it represents every clause. -/
structure Loaded (F : List Clause) (n : ℕ) (P : Propagator) : Prop extends P.Inv F n where
  sat : P.isUnsat = false
  limited : P.trailLimUnit = P.trail.length
  done : P.trailPos = P.trail.length
  supported : P.Supported P.trail.length P.trail.length
  represents : ∀ c ∈ F, P.Represents c

theorem entails_of_mem {c : Clause} (hc : c ∈ F) : Entails F c := fun _ ha =>
  List.all_eq_true.mp ha c hc

/-- **Loading a formula** finds it unsatisfiable, or represents it. -/
theorem new_loaded (hF : ∀ c ∈ F, ∀ l ∈ c, Valid n l) :
    ((new n F).isUnsat = false → (new n F).Loaded F n) ∧
      ((new n F).isUnsat = true → ∀ a, formulaTrue a F = false) := by
  obtain ⟨hok, hno⟩ := (Built.empty F n).addClauses fun c hc => ⟨hF c hc, entails_of_mem hc⟩
  unfold new
  generalize F.foldl Propagator.addClause (Propagator.empty n) = P at hok hno
  cases hunsat : P.isUnsat with
  | true =>
      simp only [hunsat, if_true]
      exact ⟨fun hsat => (nomatch hsat), fun _ => hno hunsat⟩
  | false =>
      simp only [hunsat, Bool.false_eq_true, if_false]
      obtain ⟨hbuilt, -, hrep⟩ := hok hunsat
      have hsup := hbuilt.supported
      rw [hbuilt.done] at hsup
      refine ⟨fun _ => ⟨⟨hbuilt.nbVar, hbuilt.binary, hbuilt.clauses, hbuilt.watched, hbuilt.valid,
        hbuilt.nodup, hbuilt.assignTrue, hbuilt.assignFalse, le_refl _, fun a ha => ?_,
        hbuilt.asserted⟩, rfl, rfl, hbuilt.done, ⟨hsup.binary, hsup.watched⟩, hrep⟩,
        fun hno => nomatch hno⟩
      rw [List.take_length]
      exact hbuilt.entailed a ha

end Propagator

end HydraSAT.CubeGenerator.Reducer
