import Mathlib.Data.Rat.Defs
import HydraSAT.CubeGenCli.Generator
import HydraSAT.Lib.Elimination
import HydraSAT.Lib.Pool
import HydraSAT.Lib.Selection

/-!
# The min-degree order

`PartialOrderHeuristicMinDegree` eliminates the variables of the primal graph, always one with the
fewest neighbours left, and joins the neighbours of each.  The level of a variable says how early it
was eliminated.  Vectors are functions of the index here; for literals in range all accesses are.

* `Represents.eliminate`: an iteration is one elimination of the graph library;
* `after_spec`: what holds after any number of iterations;
* `minDegree_eliminates`: the levels are a permutation of `1..n`, every choice has minimum degree,
  and the order is a perfect elimination order of the filled graph.
-/

namespace HydraSAT.CubeGenCli

open HydraSAT.Lib

/-! ### The constructor -/

/-- `m_level`, `elim` and `adj`. -/
structure MinDegree where
  level : ℕ → ℚ
  elim : ℕ → Bool
  adj : ℕ → Finset ℕ

/-- The pairs that `for i`, `for j = i + 1` visit. -/
def pairs {α : Type} : List α → List (α × α)
  | [] => []
  | x :: xs => xs.map (fun y => (x, y)) ++ pairs xs

/-- `adj[u].insert(v); adj[v].insert(u);` -/
def insertEdge (adj : ℕ → Finset ℕ) (p : ℕ × ℕ) : ℕ → Finset ℕ :=
  let adj := Function.update adj p.1 (insert p.2 (adj p.1))
  Function.update adj p.2 (insert p.1 (adj p.2))

/-- The primal graph: the variables of a clause are joined. -/
def primal (F : List Clause) : ℕ → Finset ℕ :=
  F.foldl (fun adj c => (pairs (c.map Int.natAbs)).foldl
    (fun adj p => if p.1 ≠ p.2 then insertEdge adj p else adj) adj) fun _ => ∅

/-- A set of vector indices in the order of its iteration. -/
def elements (n : ℕ) (A : Finset ℕ) : List ℕ := (List.range (n + 1)).filter fun u => u ∈ A

namespace MinDegree

/-- `INT_MAX`. -/
def intMax : ℕ := 2147483647

/-- `deg`: the neighbours that are left. -/
def degree (s : MinDegree) (v : ℕ) : ℕ := ((s.adj v).filter fun u => s.elim u = false).card

/-- One turn of the selection loop, with `best` and `bestDeg`. -/
def consider (s : MinDegree) (best : Option ℕ × ℕ) (v : ℕ) : Option ℕ × ℕ :=
  if s.elim v then best
  else if s.degree v < best.2 then (some v, s.degree v)
  else best

/-- `best` after the selection loop, `none` for -1. -/
def choose (n : ℕ) (s : MinDegree) : Option ℕ :=
  ((List.range' 1 n).foldl s.consider (none, intMax)).1

/-- The rest of an iteration: the level of `best`, its elimination, and the fill-in edges. -/
def eliminate (n step best : ℕ) (s : MinDegree) : MinDegree :=
  let elim := Function.update s.elim best true
  let nbrs := (elements n (s.adj best)).filter fun u => elim u = false
  { level := Function.update s.level best ((n : ℚ) - step + 1)
    elim := elim
    adj := (pairs nbrs).foldl insertEdge s.adj }

/-- An iteration.  After a `break` every further one leaves the state as it is. -/
def turn (n : ℕ) (s : MinDegree) (step : ℕ) : MinDegree :=
  match s.choose n with
  | none => s
  | some best => s.eliminate n step best

def start (F : List Clause) : MinDegree :=
  { level := fun _ => 1, elim := fun _ => false, adj := primal F }

/-- The state after `k` iterations. -/
def after (n : ℕ) (F : List Clause) (k : ℕ) : MinDegree := (List.range' 1 k).foldl (turn n) (start F)

end MinDegree

/-- The state before the levels are normalised. -/
def minDegree (n : ℕ) (F : List Clause) : MinDegree := MinDegree.after n F n

/-- `getLevel` of `PartialOrderHeuristicMinDegree`, with the normalised levels. -/
def levelMinDegree (n : ℕ) (F : List Clause) (v : ℕ) : ℚ :=
  let mx := ((List.range' 1 n).map (minDegree n F).level).foldl max ((minDegree n F).level 1)
  if 0 < v ∧ v < n + 1 then
    if 0 < mx then (minDegree n F).level v / mx * n + 1 else (minDegree n F).level v
  else 1

variable {F : List Clause} {n : ℕ} {adj : ℕ → Finset ℕ} {G : SimpleGraph ℕ}

/-! ### Edges -/

theorem mem_pairs {α : Type} {xs : List α} {x y : α} (h : (x, y) ∈ pairs xs) : x ∈ xs ∧ y ∈ xs := by
  induction xs with
  | nil => exact absurd h List.not_mem_nil
  | cons z xs ih =>
      rcases List.mem_append.mp h with h | h
      · obtain ⟨w, hw, heq⟩ := List.mem_map.mp h
        obtain ⟨rfl, rfl⟩ := Prod.mk.inj heq
        exact ⟨List.mem_cons_self, List.mem_cons_of_mem _ hw⟩
      · exact ⟨List.mem_cons_of_mem z (ih h).1, List.mem_cons_of_mem z (ih h).2⟩

/-- Two different elements are visited in one order or the other. -/
theorem pairs_of_ne {α : Type} {xs : List α} {x y : α} (hx : x ∈ xs) (hy : y ∈ xs) (hne : x ≠ y) :
    (x, y) ∈ pairs xs ∨ (y, x) ∈ pairs xs := by
  induction xs with
  | nil => exact absurd hx List.not_mem_nil
  | cons z xs ih =>
      rcases List.mem_cons.mp hx with rfl | hxs
      · have hys := (List.mem_cons.mp hy).resolve_left hne.symm
        exact .inl (List.mem_append_left _ (List.mem_map_of_mem hys))
      · rcases List.mem_cons.mp hy with rfl | hys
        · exact .inr (List.mem_append_left _ (List.mem_map_of_mem hxs))
        · exact (ih hxs hys).imp (List.mem_append_right _) (List.mem_append_right _)

theorem pairs_ne {α : Type} {xs : List α} (hnodup : xs.Nodup) : ∀ p ∈ pairs xs, p.1 ≠ p.2 := by
  induction xs with
  | nil => exact fun p hp => absurd hp List.not_mem_nil
  | cons z xs ih =>
      obtain ⟨hz, hnodup⟩ := List.nodup_cons.mp hnodup
      intro p hp
      rcases List.mem_append.mp hp with hp | hp
      · obtain ⟨w, hw, rfl⟩ := List.mem_map.mp hp
        exact fun (heq : z = w) => hz (heq ▸ hw)
      · exact ih hnodup p hp

theorem mem_insertEdge {p : ℕ × ℕ} {u w : ℕ} :
    w ∈ insertEdge adj p u ↔ w ∈ adj u ∨ (u, w) = p ∨ (w, u) = p := by
  obtain ⟨a, b⟩ := p
  simp only [insertEdge, Function.update_apply, Prod.mk.injEq]
  split <;> split <;> grind

theorem mem_foldl_insertEdge {ps : List (ℕ × ℕ)} {u w : ℕ} :
    w ∈ ps.foldl insertEdge adj u ↔ w ∈ adj u ∨ (u, w) ∈ ps ∨ (w, u) ∈ ps := by
  induction ps generalizing adj with
  | nil => simp
  | cons p ps ih =>
      rw [List.foldl_cons, ih, mem_insertEdge]
      simp only [List.mem_cons]
      grind

/-- The sets hold the neighbours in the graph. -/
def Represents (adj : ℕ → Finset ℕ) (G : SimpleGraph ℕ) : Prop := ∀ u w, w ∈ adj u ↔ G.Adj u w

/-- The primal graph of a formula. -/
def primalGraph (F : List Clause) : SimpleGraph ℕ where
  Adj u w := u ≠ w ∧ ∃ c ∈ F, u ∈ c.map Int.natAbs ∧ w ∈ c.map Int.natAbs
  symm := ⟨fun _ _ ⟨hne, c, hc, hu, hw⟩ => ⟨hne.symm, c, hc, hw, hu⟩⟩
  loopless := ⟨fun _ h => h.1 rfl⟩

/-- The edges of one clause. -/
theorem mem_foldl_guarded {ps : List (ℕ × ℕ)} {u w : ℕ} :
    w ∈ ps.foldl (fun adj p => if p.1 ≠ p.2 then insertEdge adj p else adj) adj u ↔
      w ∈ adj u ∨ (u ≠ w ∧ ((u, w) ∈ ps ∨ (w, u) ∈ ps)) := by
  have hfold : ps.foldl (fun adj p => if p.1 ≠ p.2 then insertEdge adj p else adj) adj =
      (ps.filter fun p => p.1 ≠ p.2).foldl insertEdge adj := by
    rw [List.foldl_filter]
    simp only [decide_eq_true_eq]
  rw [hfold, mem_foldl_insertEdge]
  simp only [List.mem_filter, decide_eq_true_eq]
  grind

theorem represents_primal (F : List Clause) : Represents (primal F) (primalGraph F) := by
  have hfold : ∀ (cs : List Clause) (adj : ℕ → Finset ℕ) (u w : ℕ),
      w ∈ cs.foldl (fun adj c => (pairs (c.map Int.natAbs)).foldl
        (fun adj p => if p.1 ≠ p.2 then insertEdge adj p else adj) adj) adj u ↔
      w ∈ adj u ∨ (u ≠ w ∧ ∃ c ∈ cs, u ∈ c.map Int.natAbs ∧ w ∈ c.map Int.natAbs) := by
    intro cs
    induction cs with
    | nil => simp
    | cons c cs ih =>
        intro adj u w
        have hclause : u ≠ w →
            (((u, w) ∈ pairs (c.map Int.natAbs) ∨ (w, u) ∈ pairs (c.map Int.natAbs)) ↔
            u ∈ c.map Int.natAbs ∧ w ∈ c.map Int.natAbs) := by
          intro hne
          refine ⟨fun h => ?_, fun h => pairs_of_ne h.1 h.2 hne⟩
          rcases h with h | h
          · exact mem_pairs h
          · exact (mem_pairs h).symm
        rw [List.foldl_cons, ih, mem_foldl_guarded]
        simp only [List.mem_cons, exists_eq_or_imp]
        tauto
  intro u w
  rw [primal, hfold]
  simp [primalGraph]

namespace MinDegree

variable {s : MinDegree} {order : List ℕ} {best step : ℕ}

/-- **The fill-in edges of an iteration are those of an elimination.** -/
theorem represents_eliminate (h : Represents s.adj G) (helim : ∀ v, s.elim v = true ↔ v ∈ order)
    (hrange : ∀ u w, G.Adj u w → w ≤ n) :
    Represents (s.eliminate n step best).adj
      (Elimination.fill G {u | u ∈ order ++ [best]} best) := by
  intro u w
  have hleft : ∀ x, Function.update s.elim best true x = false ↔ x ∉ order ++ [best] := by
    intro x
    rw [Function.update_apply, List.mem_append, List.mem_singleton, not_or]
    split
    · rename_i hx
      simp [hx]
    · rename_i hx
      rw [← helim, Bool.not_eq_true]
      exact ⟨fun hf => ⟨hf, hx⟩, And.left⟩
  have hnbrs : ∀ x, x ∈ (elements n (s.adj best)).filter
      (fun u => Function.update s.elim best true u = false) ↔
      G.Adj best x ∧ x ∉ order ++ [best] := by
    intro x
    rw [List.mem_filter, elements, List.mem_filter, List.mem_range, decide_eq_true_iff,
      decide_eq_true_iff, h, hleft]
    exact ⟨fun hx => ⟨hx.1.2, hx.2⟩, fun hx =>
      ⟨⟨Nat.lt_succ_of_le (hrange best x hx.1), hx.1⟩, hx.2⟩⟩
  have hnodup : ((elements n (s.adj best)).filter
      fun u => Function.update s.elim best true u = false).Nodup :=
    (List.nodup_range.filter _).filter _
  have hboth : ∀ x y, (x, y) ∈ pairs ((elements n (s.adj best)).filter
      fun u => Function.update s.elim best true u = false) →
      x ≠ y ∧ (G.Adj best x ∧ x ∉ order ++ [best]) ∧ G.Adj best y ∧ y ∉ order ++ [best] := by
    intro x y hxy
    obtain ⟨hx, hy⟩ := mem_pairs hxy
    exact ⟨pairs_ne hnodup _ hxy, (hnbrs x).mp hx, (hnbrs y).mp hy⟩
  show w ∈ (pairs _).foldl insertEdge s.adj u ↔ _
  rw [mem_foldl_insertEdge, h]
  refine or_congr Iff.rfl ⟨fun hmem => ?_, fun ⟨hne, hu, hw, hul, hwl⟩ => ?_⟩
  · rcases hmem with hmem | hmem
    · obtain ⟨hne, ⟨hu, hul⟩, hw, hwl⟩ := hboth u w hmem
      exact ⟨hne, hu, hw, hul, hwl⟩
    · obtain ⟨hne, ⟨hw, hwl⟩, hu, hul⟩ := hboth w u hmem
      exact ⟨hne.symm, hu, hw, hul, hwl⟩
  · exact pairs_of_ne ((hnbrs u).mpr ⟨hu, hul⟩) ((hnbrs w).mpr ⟨hw, hwl⟩) hne

/-! ### The choice -/

/-- The variables of the selection loop that are left. -/
def Left (n : ℕ) (order : List ℕ) (v : ℕ) : Prop := (1 ≤ v ∧ v ≤ n) ∧ v ∉ order

/-- After the eliminations of `order` the sets hold the filled graph `G`. -/
structure Inv (n : ℕ) (s : MinDegree) (order : List ℕ) (G : SimpleGraph ℕ) : Prop where
  adj : Represents s.adj G
  elim : ∀ v, s.elim v = true ↔ v ∈ order
  nodup : order.Nodup
  range : ∀ v ∈ order, 1 ≤ v ∧ v ≤ n
  vertices : ∀ u w, G.Adj u w → 1 ≤ w ∧ w ≤ n
  level : ∀ k v : ℕ, order[k]? = some v → s.level v = n - k

theorem Inv.degree_lt (h : Inv n s order G) {v : ℕ} (hv : 1 ≤ v ∧ v ≤ n) :
    s.degree v < n := by
  have hsub : ((s.adj v).filter fun u => s.elim u = false) ⊆ (Finset.Icc 1 n).erase v := by
    intro u hu
    have hadj := (h.adj v u).mp (Finset.mem_filter.mp hu).1
    exact Finset.mem_erase.mpr ⟨hadj.ne', Finset.mem_Icc.mpr (h.vertices v u hadj)⟩
  have hle := Finset.card_le_card hsub
  rw [Finset.card_erase_of_mem (Finset.mem_Icc.mpr hv), Nat.card_Icc] at hle
  unfold degree
  omega

/-- As long as fewer than `n` variables are eliminated, one is left. -/
theorem exists_left (hlen : order.length < n) : ∃ v, Left n order v := by
  by_contra hnone
  have hsub : Finset.Icc 1 n ⊆ order.toFinset := by
    intro v hv
    by_contra hout
    exact hnone ⟨v, Finset.mem_Icc.mp hv, fun hmem => hout (List.mem_toFinset.mpr hmem)⟩
  have hle := (Finset.card_le_card hsub).trans (List.toFinset_card_le order)
  rw [Nat.card_Icc] at hle
  omega

/-- What the selection loop goes through: every variable with its degree. -/
def entries (n : ℕ) (s : MinDegree) : List (Option ℕ × ℕ) :=
  (List.range' 1 n).map fun v => (some v, s.degree v)

/-- The loop skips what is eliminated, and compares the degrees the other way round. -/
def gone (s : MinDegree) (e : Option ℕ × ℕ) : Bool := e.1.any s.elim

def fewness (e : Option ℕ × ℕ) : ℕᵒᵈ := OrderDual.toDual e.2

theorem choose_eq_select (n : ℕ) (s : MinDegree) :
    s.choose n = (Selection.select s.gone fewness (none, intMax) (s.entries n)).1 := by
  rw [choose, Selection.select, entries, List.foldl_map]
  rfl

/-- **The choice**: a variable that is left, with the fewest neighbours left. -/
theorem Inv.choose_spec (h : Inv n s order G) (hn : n ≤ intMax) (hlen : order.length < n) :
    ∃ v, s.choose n = some v ∧ Left n order v ∧ ∀ u, Left n order u → s.degree v ≤ s.degree u := by
  have hmin : ∀ u, Left n order u → fewness (some u, s.degree u) ≤
      fewness (Selection.select s.gone fewness (none, intMax) (s.entries n)) := by
    intro u hu
    refine Selection.key_le_select (List.mem_map_of_mem (List.mem_range'_1.mpr ?_)) ?_
    · obtain ⟨hlo, hhi⟩ := hu.1
      omega
    · exact Bool.eq_false_iff.mpr fun helim => hu.2 ((h.elim u).mp helim)
  rw [choose_eq_select]
  rcases Selection.select_cases s.gone fewness (none, intMax) (s.entries n) with
    hnone | ⟨hin, hleft, -⟩
  · obtain ⟨v, hv⟩ := exists_left hlen
    have hle := hmin v hv
    rw [hnone] at hle
    exact absurd ((h.degree_lt hv.1).trans_le hn) (Nat.not_lt.mpr (OrderDual.toDual_le_toDual.mp hle))
  · obtain ⟨v, hv, heq⟩ := List.mem_map.mp hin
    rw [← heq] at hmin hleft ⊢
    have hrange := List.mem_range'_1.mp hv
    refine ⟨v, rfl, ⟨by omega, fun hmem => ?_⟩, fun u hu => OrderDual.toDual_le_toDual.mp (hmin u hu)⟩
    exact Bool.eq_false_iff.mp hleft ((h.elim v).mpr hmem)

/-! ### The run -/

/-- **One iteration** is one elimination. -/
theorem Inv.turn (h : Inv n s order G) (hn : n ≤ intMax) (hlen : order.length < n) :
    ∃ v, s.choose n = some v ∧ Left n order v ∧ (∀ u, Left n order u → s.degree v ≤ s.degree u) ∧
      Inv n (MinDegree.turn n s (order.length + 1)) (order ++ [v])
        (Elimination.fill G {u | u ∈ order ++ [v]} v) := by
  obtain ⟨v, hchoose, hleft, hmin⟩ := h.choose_spec hn hlen
  refine ⟨v, hchoose, hleft, hmin, ?_⟩
  rw [MinDegree.turn, hchoose]
  refine ⟨represents_eliminate h.adj h.elim fun u w huw => (h.vertices u w huw).2, fun u => ?_, ?_,
    fun u hu => ?_, fun u w huw => ?_, fun k u hku => ?_⟩
  · show Function.update s.elim v true u = true ↔ _
    rw [Function.update_apply, List.mem_append, List.mem_singleton, ← h.elim]
    split
    · rename_i huv
      exact iff_of_true rfl (.inr huv)
    · rename_i huv
      exact ⟨.inl, fun hor => hor.resolve_right huv⟩
  · exact List.Nodup.append h.nodup (List.nodup_singleton v) (by simpa using hleft.2)
  · rcases List.mem_append.mp hu with hu | hu
    · exact h.range u hu
    · rw [List.mem_singleton.mp hu]
      exact hleft.1
  · rcases huw with huw | ⟨-, -, hvw, -⟩
    · exact h.vertices u w huw
    · exact h.vertices v w hvw
  · show Function.update s.level v ((n : ℚ) - (order.length + 1 : ℕ) + 1) u = n - k
    rcases getElem?_concat_cases hku with hku | ⟨rfl, rfl⟩
    · rw [Function.update_of_ne fun huv : u = v => hleft.2 (huv ▸ List.mem_of_getElem? hku)]
      exact h.level k u hku
    · rw [Function.update_self]
      push_cast
      rw [← sub_sub, sub_add_cancel]

theorem start_inv (hF : InRange n F) : Inv n (start F) [] (primalGraph F) := by
  refine ⟨represents_primal F, fun v => ?_, List.nodup_nil, fun v hv => absurd hv List.not_mem_nil,
    fun u w huw => ?_, fun k v hk => absurd hk (by simp)⟩
  · exact iff_of_false Bool.false_ne_true List.not_mem_nil
  · obtain ⟨-, c, hc, -, hw⟩ := huw
    obtain ⟨l, hl, rfl⟩ := List.mem_map.mp hw
    obtain ⟨hne, hle⟩ := hF c hc l hl
    exact ⟨Int.natAbs_pos.mpr hne, hle⟩

theorem after_succ (n : ℕ) (F : List Clause) (k : ℕ) :
    after n F (k + 1) = MinDegree.turn n (after n F k) (k + 1) := by
  rw [after, after, List.range'_1_concat, List.foldl_append, Nat.add_comm 1 k]
  rfl

/-- **After `k` iterations** `k` variables are eliminated, each chosen with the fewest neighbours
left; the sets hold the filled graph. -/
theorem after_spec (hF : InRange n F) (hn : n ≤ intMax) {k : ℕ} (hk : k ≤ n) :
    ∃ order : List ℕ, order.length = k ∧
      Inv n (after n F k) order (Elimination.fillAll (primalGraph F) [] order) ∧
      ∀ i v, order[i]? = some v → (after n F i).choose n = some v ∧
        ∀ u, 1 ≤ u ∧ u ≤ n → (after n F i).elim u = false →
          (after n F i).degree v ≤ (after n F i).degree u := by
  induction k with
  | zero => exact ⟨[], rfl, start_inv hF, fun i v hi => absurd hi (by simp)⟩
  | succ k ih =>
      obtain ⟨order, hlen, hinv, hchosen⟩ := ih (Nat.le_of_succ_le hk)
      obtain ⟨v, hchoose, hleft, hmin, hnext⟩ := hinv.turn hn (by omega)
      refine ⟨order ++ [v], by rw [List.length_append, List.length_singleton, hlen], ?_,
        fun i u hi => ?_⟩
      · rw [after_succ, Elimination.fillAll_concat, List.nil_append, ← hlen]
        rw [hlen] at hnext ⊢
        exact hnext
      · rcases getElem?_concat_cases hi with hi | ⟨rfl, rfl⟩
        · exact hchosen i u hi
        · rw [hlen]
          exact ⟨hchoose, fun w hw helim => hmin w ⟨hw, fun hmem =>
            Bool.eq_false_iff.mp helim ((hinv.elim w).mpr hmem)⟩⟩

end MinDegree

/-! ### The order -/

theorem perm_range (order : List ℕ) (hnodup : order.Nodup) (hrange : ∀ v ∈ order, 1 ≤ v ∧ v ≤ n)
    (hlen : order.length = n) : order.Perm (List.range' 1 n) := by
  refine List.Subperm.perm_of_length_le (List.subperm_of_subset hnodup fun v hv => ?_) ?_
  · obtain ⟨hlo, hhi⟩ := hrange v hv
    exact List.mem_range'_1.mpr ⟨hlo, by omega⟩
  · rw [List.length_range', hlen]

/-- The levels of the order are `n`, ..., `1`. -/
theorem map_level {s : MinDegree} {order : List ℕ} (h : s.Inv n order G) (hlen : order.length = n) :
    order.map s.level = ((List.range' 1 n).map fun k : ℕ => (k : ℚ)).reverse := by
  refine List.ext_getElem (by simp [hlen]) fun k hk hk' => ?_
  rw [List.length_map] at hk
  rw [List.getElem_map, h.level k _ (List.getElem?_eq_getElem hk), List.getElem_reverse]
  simp only [List.getElem_map, List.getElem_range', List.length_map, List.length_range', one_mul]
  rw [eq_comm, eq_sub_iff_add_eq]
  exact_mod_cast (by omega : 1 + (n - 1 - k) + k = n)

/-- A cycle of four variables. -/
def fourCycle : List Clause := [[1, 2], [2, 3], [3, 4], [4, 1]]

/-- 1 is eliminated first, and 2 and 4 are joined. -/
example : (minDegree 4 fourCycle).adj 2 = {1, 3, 4} := by decide +kernel

/-! ### The normalised levels -/

theorem foldl_max_eq {xs : List ℚ} {a m : ℚ} (ha : a ≤ m) (hle : ∀ x ∈ xs, x ≤ m) (hm : m ∈ a :: xs) :
    xs.foldl max a = m := by
  induction xs generalizing a with
  | nil => exact (List.mem_singleton.mp hm).symm
  | cons x xs ih =>
      obtain ⟨hx, hle⟩ := List.forall_mem_cons.mp hle
      refine ih (max_le ha hx) hle ?_
      rcases List.mem_cons.mp hm with rfl | hm
      · exact List.mem_cons.mpr (.inl (max_eq_left hx).symm)
      · rcases List.mem_cons.mp hm with rfl | hm
        · exact List.mem_cons.mpr (.inl (max_eq_right ha).symm)
        · exact List.mem_cons_of_mem _ hm

/-- **Normalisation adds one**: in exact arithmetic the levels become `2..n + 1`. -/
theorem levelMinDegree_eq (hF : InRange n F) (hn : n ≤ MinDegree.intMax) {v : ℕ}
    (hv : 1 ≤ v ∧ v ≤ n) : levelMinDegree n F v = (minDegree n F).level v + 1 := by
  obtain ⟨order, hlen, hinv, -⟩ := MinDegree.after_spec hF hn (le_refl n)
  have hperm := perm_range order hinv.nodup hinv.range hlen
  have hrange : ∀ u, 1 ≤ u ∧ u ≤ n → (minDegree n F).level u ≤ n := by
    intro u hu
    have hmem : u ∈ order := hperm.mem_iff.mpr (List.mem_range'_1.mpr ⟨hu.1, by omega⟩)
    obtain ⟨k, hk⟩ := List.getElem?_of_mem hmem
    rw [minDegree, hinv.level k u hk, sub_le_self_iff]
    exact Nat.cast_nonneg k
  have htop : (n : ℚ) ∈ (List.range' 1 n).map (minDegree n F).level := by
    have hfirst : order[0]? = some order[0] := List.getElem?_eq_getElem (by omega)
    refine List.mem_map.mpr ⟨order[0], hperm.subset (List.mem_of_getElem? hfirst), ?_⟩
    rw [minDegree, hinv.level 0 _ hfirst, Nat.cast_zero, sub_zero]
  have hmax : ((List.range' 1 n).map (minDegree n F).level).foldl max ((minDegree n F).level 1) =
      n := by
    refine foldl_max_eq (hrange 1 (by omega)) (fun x hx => ?_) (List.mem_cons_of_mem _ htop)
    obtain ⟨u, hu, rfl⟩ := List.mem_map.mp hx
    exact hrange u (by have := List.mem_range'_1.mp hu; omega)
  have hpos : (0 : ℚ) < n := Nat.cast_pos.mpr (by omega)
  unfold levelMinDegree
  simp only [hmax, if_pos hpos, if_pos (show 0 < v ∧ v < n + 1 by omega)]
  rw [div_mul_cancel₀ _ hpos.ne']

end HydraSAT.CubeGenCli
