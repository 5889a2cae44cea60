import Mathlib.Data.List.Basic

/-!
# Growable buffers

A buffer keeps its elements in one block of memory with room for `capacity` of them.  Appending to a
full buffer moves the elements to a larger block; a pointer into the old block is then invalid, and
reading through it yields nothing.  Blocks are told apart by the number of moves before them.

* `Later`: appending and removing leave the block alone, or move to larger blocks only;
* `pushAll_room`, `pushAll_moves`: appending a list leaves the block alone exactly if there is room;
* `read_data`, `read_stale`: a pointer reads the elements as long as its block is in use.
-/

namespace HydraSAT.Lib

/-- How much room a full buffer gets. -/
structure Growth where
  next : ℕ → ℕ
  lt_next : ∀ capacity, capacity < next capacity

/-- Twice the room, or room for one element. -/
def Growth.doubling : Growth where
  next capacity := capacity + max capacity 1
  lt_next capacity := by omega

structure Buffer (α : Type*) where
  elems : List α
  capacity : ℕ
  block : ℕ
  fits : elems.length ≤ capacity

namespace Buffer

variable {α : Type*} {b b' b'' : Buffer α} {xs : List α} {p : ℕ}

/-- Nothing, with room for nothing. -/
def empty : Buffer α where
  elems := []
  capacity := 0
  block := 0
  fits := Nat.le_refl 0

def pushBack (g : Growth) (b : Buffer α) (x : α) : Buffer α :=
  if h : b.elems.length < b.capacity then
    { b with
      elems := b.elems ++ [x]
      fits := by rw [List.length_append, List.length_singleton]; exact h }
  else
    { elems := b.elems ++ [x]
      capacity := g.next b.capacity
      block := b.block + 1
      fits := by
        have hlt := g.lt_next b.capacity
        have hfits := b.fits
        rw [List.length_append, List.length_singleton]
        omega }

/-- Append the elements of a list one by one. -/
def pushAll (g : Growth) (b : Buffer α) (xs : List α) : Buffer α := xs.foldl (pushBack g) b

/-- Remove elements from the end until `n` are left. -/
def truncate (b : Buffer α) (n : ℕ) : Buffer α where
  elems := b.elems.take n
  capacity := b.capacity
  block := b.block
  fits := Nat.le_trans (List.length_take_le' n b.elems) b.fits

/-- A pointer to the first element, good as long as the block is in use. -/
def data (b : Buffer α) : ℕ := b.block

/-- The first `n` elements, read through a pointer to the first one. -/
def read (b : Buffer α) (p n : ℕ) : Option (List α) :=
  if p = b.block ∧ n ≤ b.elems.length then some (b.elems.take n) else none

/-! ### The elements -/

@[simp] theorem elems_pushBack (g : Growth) (b : Buffer α) (x : α) :
    (b.pushBack g x).elems = b.elems ++ [x] := by
  unfold pushBack
  split <;> rfl

theorem elems_pushAll (g : Growth) (b : Buffer α) (xs : List α) :
    (b.pushAll g xs).elems = b.elems ++ xs := by
  unfold pushAll
  induction xs generalizing b with
  | nil => exact (List.append_nil _).symm
  | cons x xs ih => rw [List.foldl_cons, ih, elems_pushBack, List.append_assoc, List.singleton_append]

@[simp] theorem elems_truncate (b : Buffer α) (n : ℕ) : (b.truncate n).elems = b.elems.take n := rfl

theorem pushAll_append (g : Growth) (b : Buffer α) (xs ys : List α) :
    b.pushAll g (xs ++ ys) = (b.pushAll g xs).pushAll g ys := List.foldl_append

/-! ### Moves -/

/-- Nothing has moved from `b` to `b'`, or the elements have moved to larger blocks. -/
def Later (b b' : Buffer α) : Prop :=
  (b'.block = b.block ∧ b'.capacity = b.capacity) ∨ (b.block < b'.block ∧ b.capacity < b'.capacity)

theorem Later.refl (b : Buffer α) : Later b b := .inl ⟨rfl, rfl⟩

theorem Later.capacity_le (h : Later b b') : b.capacity ≤ b'.capacity := by
  rcases h with ⟨-, hsame⟩ | ⟨-, hlt⟩
  · exact Nat.le_of_eq hsame.symm
  · exact Nat.le_of_lt hlt

theorem Later.trans (h : Later b b') (h' : Later b' b'') : Later b b'' := by
  unfold Later at *
  omega

theorem later_truncate (b : Buffer α) (n : ℕ) : Later b (b.truncate n) := .inl ⟨rfl, rfl⟩

theorem pushBack_room (h : b.elems.length < b.capacity) (g : Growth) (x : α) :
    (b.pushBack g x).block = b.block ∧ (b.pushBack g x).capacity = b.capacity := by
  rw [pushBack, dif_pos h]
  exact ⟨rfl, rfl⟩

theorem pushBack_moves (h : b.capacity ≤ b.elems.length) (g : Growth) (x : α) :
    b.block < (b.pushBack g x).block ∧ b.capacity < (b.pushBack g x).capacity := by
  rw [pushBack, dif_neg (Nat.not_lt.mpr h)]
  exact ⟨Nat.lt_succ_self b.block, g.lt_next b.capacity⟩

theorem later_pushBack (g : Growth) (b : Buffer α) (x : α) : Later b (b.pushBack g x) := by
  rcases Nat.lt_or_ge b.elems.length b.capacity with h | h
  · exact .inl (pushBack_room h g x)
  · exact .inr (pushBack_moves h g x)

theorem later_pushAll (g : Growth) (b : Buffer α) (xs : List α) : Later b (b.pushAll g xs) := by
  unfold pushAll
  induction xs generalizing b with
  | nil => exact .refl b
  | cons x xs ih => exact (later_pushBack g b x).trans (ih (b.pushBack g x))

/-- **With room for all elements, appending them moves nothing.** -/
theorem pushAll_room (h : b.elems.length + xs.length ≤ b.capacity) (g : Growth) :
    (b.pushAll g xs).block = b.block ∧ (b.pushAll g xs).capacity = b.capacity := by
  unfold pushAll
  induction xs generalizing b with
  | nil => exact ⟨rfl, rfl⟩
  | cons x xs ih =>
      rw [List.length_cons] at h
      obtain ⟨hblock, hcapacity⟩ := pushBack_room (b := b) (by omega) g x
      have hroom : (b.pushBack g x).elems.length + xs.length ≤ (b.pushBack g x).capacity := by
        rw [elems_pushBack, List.length_append, List.length_singleton, hcapacity]
        omega
      rw [List.foldl_cons, (ih hroom).1, (ih hroom).2]
      exact ⟨hblock, hcapacity⟩

/-- **Without it, some element moves the block.** -/
theorem pushAll_moves (h : b.capacity < b.elems.length + xs.length) (g : Growth) :
    b.block < (b.pushAll g xs).block ∧ b.capacity < (b.pushAll g xs).capacity := by
  unfold pushAll
  induction xs generalizing b with
  | nil => exact absurd b.fits (Nat.not_le.mpr h)
  | cons x xs ih =>
      rw [List.length_cons] at h
      rw [List.foldl_cons]
      rcases Nat.lt_or_ge b.elems.length b.capacity with hroom | hfull
      · obtain ⟨hblock, hcapacity⟩ := pushBack_room hroom g x
        rw [← hblock, ← hcapacity]
        refine ih ?_
        rw [elems_pushBack, List.length_append, List.length_singleton, hcapacity]
        omega
      · have hmoved := pushBack_moves hfull g x
        have hlater : Later (b.pushBack g x) (xs.foldl (pushBack g) (b.pushBack g x)) :=
          later_pushAll g (b.pushBack g x) xs
        unfold Later at hlater
        omega

/-! ### Reading -/

/-- A pointer into the block in use reads the elements. -/
theorem read_data (h : p = b.block) : b.read p b.elems.length = some b.elems := by
  rw [read, if_pos ⟨h, Nat.le_refl _⟩, List.take_length]

/-- A pointer into an old block reads nothing. -/
theorem read_stale (h : p ≠ b.block) (n : ℕ) : b.read p n = none := if_neg fun hp => h hp.1

end Buffer

end HydraSAT.Lib
