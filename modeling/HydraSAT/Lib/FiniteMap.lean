import Mathlib.Data.List.AList
import Mathlib.Data.List.Perm.Basic
import Mathlib.Algebra.BigOperators.Group.List.Basic

/-!
# Finite maps as bags of entries

`AList` carries the distinctness of its keys.  A quantity summed over the entries of a map follows
its updates through three facts: deleting a present key takes out its entry
(`perm_of_lookup`), inserting an absent key adds one (`entries_insert_of_notMem`, from the
library), and overwriting a key exchanges its entry (`perm_insert_of_lookup`).
-/

namespace HydraSAT.Lib

variable {κ β : Type*} [DecidableEq κ] {m : AList (fun _ : κ => β)} {k : κ} {v w : β}

/-- **Deletion takes out one entry.** -/
theorem perm_of_lookup (h : m.lookup k = some v) :
    m.entries.Perm (⟨k, v⟩ :: (m.erase k).entries) := by
  have hmem : (⟨k, v⟩ : Sigma fun _ : κ => β) ∈ m.entries :=
    (List.mem_dlookup_iff m.nodupKeys).mp h
  obtain ⟨b, l₁, l₂, -, he, hk⟩ := List.exists_of_kerase (List.mem_keys_of_mem hmem)
  have hb : b = v := by
    have hb' : (⟨k, b⟩ : Sigma fun _ : κ => β) ∈ m.entries := by simp [he]
    exact List.NodupKeys.eq_of_mk_mem m.nodupKeys hb' hmem
  subst hb
  show m.entries.Perm (⟨k, b⟩ :: m.entries.kerase k)
  rw [hk, he]
  exact List.perm_middle

/-- **Overwriting exchanges one entry.** -/
theorem perm_insert_of_lookup : (m.insert k w).entries = ⟨k, w⟩ :: (m.erase k).entries :=
  rfl

/-- A sum over the entries loses the summand of a deleted key. -/
theorem sum_erase {M : Type*} [AddCommMonoid M] (f : (Sigma fun _ : κ => β) → M)
    (h : m.lookup k = some v) :
    (m.entries.map f).sum = f ⟨k, v⟩ + ((m.erase k).entries.map f).sum := by
  simpa using ((perm_of_lookup h).map f).sum_eq

/-- A sum over the entries gains the summand of a fresh key. -/
theorem sum_insert {M : Type*} [AddCommMonoid M] (f : (Sigma fun _ : κ => β) → M)
    (h : k ∉ m) : ((m.insert k w).entries.map f).sum = f ⟨k, w⟩ + (m.entries.map f).sum := by
  rw [AList.entries_insert_of_notMem h]
  simp

/-- A sum that does not look at what is overwritten does not change. -/
theorem sum_overwrite {M : Type*} [AddCommMonoid M] (f : (Sigma fun _ : κ => β) → M)
    (h : m.lookup k = some v) (hf : f ⟨k, w⟩ = f ⟨k, v⟩) :
    ((m.insert k w).entries.map f).sum = (m.entries.map f).sum := by
  rw [sum_erase f h, perm_insert_of_lookup]
  simp [hf]

end HydraSAT.Lib
