import Mathlib.Combinatorics.SimpleGraph.Clique

/-!
# Vertex elimination and fill-in

Eliminating a vertex of a graph joins its neighbours that are still there.  Edges are only added
between vertices that are left, so that what an eliminated vertex sees of the later ones stays
what it was.

* `fill`: the graph after an elimination;
* `Simplicial`: the later neighbours of every eliminated vertex form a clique;
* `Simplicial.fill`: one elimination keeps that and adds the eliminated vertex;
* `fillAll_simplicial`: so the order is a perfect elimination order of the filled graph.
-/

namespace HydraSAT.Lib.Elimination

variable {V : Type*} {G : SimpleGraph V} {order : List V} {v : V}

/-- The neighbours of `v` outside `gone` are joined. -/
def fill (G : SimpleGraph V) (gone : Set V) (v : V) : SimpleGraph V where
  Adj u w := G.Adj u w ∨ (u ≠ w ∧ G.Adj v u ∧ G.Adj v w ∧ u ∉ gone ∧ w ∉ gone)
  symm := ⟨fun _ _ h => h.imp SimpleGraph.Adj.symm fun ⟨hne, hu, hw, hgu, hgw⟩ =>
    ⟨hne.symm, hw, hu, hgw, hgu⟩⟩
  loopless := ⟨fun _ h => h.elim G.irrefl fun h => h.1 rfl⟩

theorem le_fill (G : SimpleGraph V) (gone : Set V) (v : V) : G ≤ fill G gone v := fun _ _ h => .inl h

/-- For every vertex of the order its neighbours that do not come before it form a clique. -/
def Simplicial (G : SimpleGraph V) (order : List V) : Prop :=
  ∀ before v after, order = before ++ v :: after → G.IsClique {u | G.Adj v u ∧ u ∉ before}

theorem Simplicial.nil (G : SimpleGraph V) : Simplicial G [] := fun before v after h =>
  absurd h.symm (List.append_ne_nil_of_right_ne_nil before (List.cons_ne_nil v after))

/-- An eliminated vertex gets no new neighbours. -/
theorem fill_adj_of_mem {gone : Set V} {u w : V} (hu : u ∈ gone) :
    (fill G gone v).Adj u w ↔ G.Adj u w :=
  ⟨fun h => h.resolve_right fun ⟨_, _, _, hgone, _⟩ => hgone hu, .inl⟩

/-- **One elimination** keeps the cliques of the earlier vertices, and makes one of the neighbours of
the next. -/
theorem Simplicial.fill (h : Simplicial G order) :
    Simplicial (fill G {u | u ∈ order ++ [v]} v) (order ++ [v]) := by
  intro before x after hsplit
  have hx : x ∈ ({u | u ∈ order ++ [v]} : Set V) := by
    show x ∈ order ++ [v]
    rw [hsplit]
    exact List.mem_append_right _ List.mem_cons_self
  rcases List.eq_nil_or_concat after with rfl | ⟨after, y, rfl⟩
  · -- `x` is the vertex that is eliminated
    obtain ⟨rfl, hlast⟩ := List.append_inj' hsplit rfl
    obtain rfl : v = x := (List.cons.inj hlast).1
    rintro u ⟨hu, hub⟩ w ⟨hw, hwb⟩ hne
    have hvu := (fill_adj_of_mem hx).mp hu
    have hvw := (fill_adj_of_mem hx).mp hw
    have hleft : ∀ z, G.Adj v z → z ∉ order → z ∉ ({u | u ∈ order ++ [v]} : Set V) := by
      intro z hz hzo hmem
      rcases List.mem_append.mp hmem with hmem | hmem
      · exact hzo hmem
      · exact G.irrefl (List.mem_singleton.mp hmem ▸ hz)
    exact .inr ⟨hne, hvu, hvw, hleft u hvu hub, hleft w hvw hwb⟩
  · have hsplit' : order = before ++ x :: after := by
      rw [List.concat_eq_append, ← List.cons_append, ← List.append_assoc] at hsplit
      exact (List.append_inj' hsplit rfl).1
    have hclique := h before x after hsplit'
    rintro u ⟨hu, hub⟩ w ⟨hw, hwb⟩ hne
    exact .inl (hclique ⟨(fill_adj_of_mem hx).mp hu, hub⟩ ⟨(fill_adj_of_mem hx).mp hw, hwb⟩ hne)

/-- Elimination along an order, after the vertices of `order`. -/
def fillAll (G : SimpleGraph V) : List V → List V → SimpleGraph V
  | _, [] => G
  | order, v :: rest => fillAll (Elimination.fill G {u | u ∈ order ++ [v]} v) (order ++ [v]) rest

theorem fillAll_concat (G : SimpleGraph V) (order rest : List V) (v : V) :
    fillAll G order (rest ++ [v]) =
      Elimination.fill (fillAll G order rest) {u | u ∈ order ++ rest ++ [v]} v := by
  induction rest generalizing G order with
  | nil => rw [List.append_nil]; rfl
  | cons w rest ih =>
      rw [List.cons_append, fillAll, ih, ← List.append_cons]
      rfl

/-- **The order of elimination is a perfect elimination order of the filled graph.** -/
theorem fillAll_simplicial (h : Simplicial G order) (rest : List V) :
    Simplicial (fillAll G order rest) (order ++ rest) := by
  induction rest generalizing G order with
  | nil => rwa [List.append_nil]
  | cons v rest ih =>
      rw [List.append_cons]
      exact ih h.fill

theorem le_fillAll (G : SimpleGraph V) (order rest : List V) : G ≤ fillAll G order rest := by
  induction rest generalizing G order with
  | nil => exact le_refl G
  | cons v rest ih => exact (le_fill G _ v).trans (ih _ _)

end HydraSAT.Lib.Elimination
