import Mathlib.Algebra.BigOperators.Group.List.Basic
import Mathlib.Algebra.Order.BigOperators.Group.List
import Mathlib.Algebra.Order.Ring.Nat
import Mathlib.Algebra.Group.Action.Defs

/-!
# Frontiers of binary trees

A search keeps a bag of nodes and replaces a node by at most two of smaller rank.  A binary tree of
rank `k` has at most `2 ^ (k + 1) - 1` nodes; the sum of these bounds over the bag is a potential
that every expansion lowers.
-/

namespace HydraSAT.Lib.Frontier

variable {β : Type*} {rank : β → ℕ} {x : β} {before after rest children : List β}

/-- How many nodes the trees below the frontier can have. -/
def potential (rank : β → ℕ) (frontier : List β) : ℕ :=
  (frontier.map fun x => 2 ^ (rank x + 1) - 1).sum

theorem potential_append (xs ys : List β) :
    potential rank (xs ++ ys) = potential rank xs + potential rank ys := by
  rw [potential, List.map_append, List.sum_append]
  rfl

theorem potential_perm (h : before.Perm after) : potential rank before = potential rank after :=
  (h.map _).sum_eq

/-- Two trees of smaller rank have room below a node. -/
theorem potential_children_lt (hlen : children.length ≤ 2)
    (hrank : ∀ c ∈ children, rank c < rank x) : potential rank children < potential rank [x] := by
  have heach : ∀ c ∈ children, 2 ^ (rank c + 1) - 1 ≤ 2 ^ rank x - 1 := fun c hc =>
    Nat.sub_le_sub_right (Nat.pow_le_pow_right Nat.two_pos (hrank c hc)) 1
  have hsum : potential rank children ≤ children.length * (2 ^ rank x - 1) := by
    have hcard := List.sum_le_card_nsmul (children.map fun c => 2 ^ (rank c + 1) - 1)
      (2 ^ rank x - 1) fun k hk => by
        obtain ⟨c, hc, rfl⟩ := List.mem_map.mp hk
        exact heach c hc
    rwa [List.length_map, smul_eq_mul] at hcard
  have htwo : children.length * (2 ^ rank x - 1) ≤ 2 * (2 ^ rank x - 1) :=
    Nat.mul_le_mul_right _ hlen
  have hself : potential rank [x] = 2 ^ (rank x + 1) - 1 := List.sum_singleton
  have hpow : 2 ^ (rank x + 1) = 2 * 2 ^ rank x := Nat.pow_succ'
  have hpos : 0 < 2 ^ rank x := Nat.two_pow_pos _
  omega

/-- **An expansion lowers the potential.** -/
theorem potential_lt (hbefore : before.Perm (x :: rest)) (hafter : after.Perm (rest ++ children))
    (hlen : children.length ≤ 2) (hrank : ∀ c ∈ children, rank c < rank x) :
    potential rank after < potential rank before := by
  have hchildren := potential_children_lt hlen hrank
  have hsplit : potential rank (x :: rest) = potential rank [x] + potential rank rest :=
    potential_append [x] rest
  rw [potential_perm hbefore, potential_perm hafter, potential_append, hsplit]
  omega

end HydraSAT.Lib.Frontier
